import Mathlib.Order.Interval.Finset.Fin
import WordFields.Proofs.Word.SingleBits

/-!
# Ranges hold the positions they are made for

A range is made from two bounds, from its first and last position, or from one position, and there
is one for each word. The range from a first to a last position ends behind the last one; where no
position is behind it the range is refused, before first and last are compared. Whatever a range is
made from, it holds just the positions meant, and its length, its bounds and the words it lies
within agree with that.
-/

set_option autoImplicit false

namespace WordFields

namespace Position

theorem next?_of_val {p behind : Position} (isNext : behind.val = p.val + 1) :
    p.next? = some behind :=
  ofNat?_eq_some_iff.2 isNext

/-- Every position but the last has one behind it. -/
theorem exists_next {p : Position} (notLast : p.val ≠ 0xffffffffffffffff) :
    ∃ behind : Position, behind.val = p.val + 1 :=
  ⟨⟨p.val + 1, by omega⟩, rfl⟩

end Position

namespace BitRange

/-- The range holds the positions that are `meant`, and all that it tells of itself agrees. -/
structure Denotes (r : BitRange) (meant : Position → Prop) : Prop where
  ordered : r.start.val < r.stop.val
  length_exact : r.start.val + r.length.val = r.stop.val
  contains_iff : ∀ i, r.contains i = true ↔ meant i
  length_eq_card : r.length.val = (Finset.univ.filter fun i => r.contains i = true).card
  one_le_length : 1 ≤ r.length.val
  ofPair_toPair : ofPair r.toPair = .ok r
  within_iff : ∀ s : WordSize, r.within s = .ok () ↔ ∀ i, r.contains i = true → i.val < s.bits

theorem length_eq_card (r : BitRange) :
    r.length.val = (Finset.univ.filter fun i => r.contains i = true).card := by
  have positions : (Finset.univ.filter fun i => r.contains i = true) =
      Finset.Ico r.start r.stop := by
    ext i
    rw [Finset.mem_filter, Finset.mem_Ico, r.contains_iff]
    exact and_iff_right (Finset.mem_univ i)
  rw [positions, Fin.card_Ico, length]

theorem ofPair_toPair (r : BitRange) : ofPair r.toPair = .ok r := ofBounds_of_lt r.start_lt_stop

theorem within_eq_ok_iff {r : BitRange} {s : WordSize} :
    r.within s = .ok () ↔ r.stop ≤ s.width := by
  unfold within
  split
  next isWithin => exact iff_of_true rfl isWithin
  next past => exact iff_of_false nofun past

/-- The position before the end is the last one held: if it is in the word, all are. -/
theorem within_iff (r : BitRange) (s : WordSize) :
    r.within s = .ok () ↔ ∀ i, r.contains i = true → i.val < s.bits := by
  rw [within_eq_ok_iff]
  constructor
  · exact fun isWithin i held => lt_width_of_contains isWithin held
  · intro inWord
    have ordered := r.val_start_lt
    let last : Position := ⟨r.stop.val - 1, by omega⟩
    have held : r.contains last = true := by
      rw [r.contains_iff, Fin.le_def, Fin.lt_def]
      dsimp only [last]
      omega
    have bound : r.stop.val - 1 < s.bits := inWord last held
    rw [Fin.le_def, WordSize.val_width]
    omega

/-- Of every range it is enough to know which positions are between its bounds. -/
theorem denotes_of_iff (r : BitRange) {meant : Position → Prop}
    (isMeant : ∀ i, (r.start ≤ i ∧ i < r.stop) ↔ meant i) : r.Denotes meant where
  ordered := r.val_start_lt
  length_exact := r.start_add_length
  contains_iff i := (r.contains_iff i).trans (isMeant i)
  length_eq_card := r.length_eq_card
  one_le_length := r.length_pos
  ofPair_toPair := r.ofPair_toPair
  within_iff := r.within_iff

/-- That nothing is behind the last position is found before first and last are compared. -/
theorem ofFirstLast_of_last (first : Position) {last : Position}
    (isLast : last.val = 0xffffffffffffffff) :
    ofFirstLast first last = .refuse (.outside last WordSize.b128.width) := by
  rw [ofFirstLast, Position.next?_eq_none_iff.2 isLast]

theorem ofFirstLast_of_next (first : Position) {last behind : Position}
    (isNext : behind.val = last.val + 1) : ofFirstLast first last = ofBounds first behind := by
  rw [ofFirstLast, Position.next?_of_val isNext]

/-- The range of one position is the one from that position to itself, and is refused as that. -/
theorem single_eq (index : Position) : single index = ofFirstLast index index := by
  by_cases isLast : index.val = 0xffffffffffffffff
  · rw [single_last isLast, ofFirstLast_of_last index isLast]
  · obtain ⟨r, made, only⟩ := exists_single isLast
    have ordered : index < r.stop := only.start ▸ r.start_lt_stop
    have same : r = ⟨index, r.stop, ordered⟩ := by
      obtain ⟨start, stop, _⟩ := r
      cases only.start
      rfl
    rw [made, ofFirstLast_of_next index only.stop, ofBounds_of_lt ordered, ← same]

/-- Two bounds make the range of the positions from the first to before the second, in either form,
exactly if they are in order. A first and a last position are refused if nothing is behind the last,
whatever the first; otherwise the range ends behind the last and is refused with that end if the
first is above the last. One position is a first and a last. The whole of a word holds its
positions. -/
theorem made_exactly (a b : Position) :
    (ofPair (a, b) = ofBounds a b ∧
      (a < b → ∃ r, ofBounds a b = .ok r ∧ r.toPair = (a, b) ∧ r.Denotes fun i => a ≤ i ∧ i < b) ∧
      (b ≤ a → ofBounds a b = .refuse (.reversed a b))) ∧
    ((b.val = 0xffffffffffffffff →
        ofFirstLast a b = .refuse (.outside b WordSize.b128.width)) ∧
      (b.val ≠ 0xffffffffffffffff → ∃ behind : Position, behind.val = b.val + 1 ∧
        (b < a → ofFirstLast a b = .refuse (.reversed a behind)) ∧
        (a ≤ b → ∃ r, ofFirstLast a b = .ok r ∧ r.toPair = (a, behind) ∧
          r.Denotes fun i => a ≤ i ∧ i ≤ b))) ∧
    single a = ofFirstLast a a ∧
    ∀ s, (whole s).toPair = (0, s.width) ∧ (whole s).Denotes fun i => i.val < s.bits := by
  refine ⟨⟨rfl, fun ordered => ?_, fun reversed => ?_⟩, ⟨ofFirstLast_of_last a, fun notLast => ?_⟩,
    single_eq a, fun s => ⟨rfl, denotes_of_iff _ fun i => ?_⟩⟩
  · exact ⟨_, ofBounds_of_lt ordered, rfl, denotes_of_iff _ fun i => Iff.rfl⟩
  · exact ofBounds_of_not_lt (Fin.not_lt.2 reversed)
  · obtain ⟨behind, isNext⟩ := Position.exists_next notLast
    refine ⟨behind, isNext, fun reversed => ?_, fun ordered => ?_⟩
    · have unordered : ¬ a < behind := by
        rw [Fin.lt_def] at reversed ⊢
        omega
      rw [ofFirstLast_of_next a isNext, ofBounds_of_not_lt unordered]
    · have forward : a < behind := by
        rw [Fin.le_def] at ordered
        rw [Fin.lt_def]
        omega
      refine ⟨_, (ofFirstLast_of_next a isNext).trans (ofBounds_of_lt forward), rfl, ?_⟩
      refine denotes_of_iff _ fun i => ?_
      dsimp only
      rw [Fin.lt_def, Fin.le_def (b := b), isNext, Nat.lt_succ_iff]
  · exact and_iff_right (Fin.zero_le i)

/-- The last of all positions ends no range and has none of its own; the range of the one before it
ends there. From 5 to 3 the refusal names the end 4. -/
theorem made_at_the_end :
    let last : Position := ⟨0xffffffffffffffff, by decide⟩
    let before : Position := ⟨0xfffffffffffffffe, by decide⟩
    ofFirstLast 0 last = .refuse (.outside last WordSize.b128.width) ∧
      single last = .refuse (.outside last WordSize.b128.width) ∧
      (∃ r, ofFirstLast before before = .ok r ∧ r.toPair = (before, last) ∧
        r.Denotes fun i => before ≤ i ∧ i ≤ before) ∧
      ofFirstLast 5 3 = .refuse (.reversed 5 4) := by
  intro last before
  obtain ⟨-, ⟨zeroLast, -⟩, -, -⟩ := made_exactly 0 last
  obtain ⟨-, ⟨lastLast, -⟩, alone, -⟩ := made_exactly last last
  obtain ⟨-, ⟨-, upToBefore⟩, -, -⟩ := made_exactly before before
  obtain ⟨behind, isNext, -, made⟩ := upToBefore (by decide)
  have isLast : behind = last := Fin.ext isNext
  obtain ⟨-, ⟨-, upToThree⟩, -, -⟩ := made_exactly 5 3
  obtain ⟨four, isFour, reversed, -⟩ := upToThree (by decide)
  have named : four = 4 := Fin.ext isFour
  refine ⟨zeroLast rfl, alone.trans (lastLast rfl), ?_, named ▸ reversed (by decide)⟩
  exact isLast ▸ made (by decide)

end BitRange

end WordFields
