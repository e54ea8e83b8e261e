import WordFields.Proofs.Layout.Decoding

/-!
# A word restored from its decoded entries

Every entry carries the bits of its range, so writing entries into another word moves these bits
over and no others. Where ranges overlap the entries agree, which makes the order of the writes
irrelevant.
-/

set_option autoImplicit false

namespace WordFields

variable {s : WordSize}

/-- The value modulo the size of the word, negative numbers in two's complement. -/
def Value.residue (s : WordSize) : Value → Word s
  | .unsigned v => BitVec.ofNat s.bits v.toNat
  | .signed n => BitVec.ofInt s.bits n

namespace Entry

/-- The word with the entry's value written at the entry's range. -/
def writeBack (w : Word s) (e : Entry) : Outcome RangeError (Word s) :=
  w.overwrite e.range (e.value.residue s)

/-- All entries written in turn. -/
def writeAll (w : Word s) (entries : List Entry) : Outcome RangeError (Word s) :=
  entries.foldlM writeBack w

/-- The entry lies within the word `v` and its value has the bits that `v` has there. -/
structure Carries (v : Word s) (e : Entry) : Prop where
  within : e.range.stop ≤ s.width
  bits : ∀ i, e.range.contains i = true →
    (e.value.residue s).getLsbD (i.val - e.range.start.val) = v.getLsbD i.val

end Entry

/-- Taking the number of a field modulo the word drops the sign bits above the field at most. -/
theorem residue_valueIn_bit (f : Field) (v : Word s) (within : f.range.stop ≤ s.width) {k : Nat}
    (inRange : k < f.range.length.val) :
    ((f.valueIn v).residue s).getLsbD k = v.getLsbD (f.range.start.val + k) := by
  have bounds : f.range.stop.val ≤ s.bits := within
  have total := f.range.start_add_length
  have inWord : k < s.bits := by omega
  have inWidest : k < WordSize.b128.bits := Nat.lt_of_lt_of_le inWord s.bits_le
  unfold Field.valueIn
  cases f.signed with
  | true =>
    change (BitVec.signExtend s.bits
      (BitVec.extractLsb' f.range.start.val f.range.length.val v)).getLsbD k = _
    rw [BitVec.getLsbD_signExtend, if_pos inRange, BitVec.getLsbD_extractLsb']
    simp only [inWord, inRange, decide_true, Bool.true_and]
  | false =>
    rw [if_neg (by decide), Value.residue, BitVec.getLsbD_ofNat, ← BitVec.getLsbD,
      BitVec.getLsbD_setWidth, BitVec.getLsbD_extractLsb']
    simp only [inWord, inWidest, inRange, decide_true, Bool.true_and]

theorem entryIn_carries (v : Word s) (e : String × Field) (within : e.2.range.stop ≤ s.width) :
    (Layout.entryIn v e).Carries v := by
  refine ⟨within, fun i covered => ?_⟩
  obtain ⟨low, high⟩ := (e.2.range.contains_iff i).1 covered
  have total := e.2.range.start_add_length
  have fromStart : e.2.range.start.val ≤ i.val := low
  have toStop : i.val < e.2.range.stop.val := high
  have bit := residue_valueIn_bit e.2 v within (k := i.val - e.2.range.start.val) (by omega)
  rwa [Nat.add_sub_cancel' fromStart] at bit

/-- The invariant of the writes: after some of them the bits that they cover are those of `v`, and
the others are still those of the first word. -/
theorem writeAll_carried (v : Word s) (entries : List Entry)
    (carried : ∀ e ∈ entries, e.Carries v) (b : Word s) :
    ∃ out, Entry.writeAll b entries = .ok out ∧ ∀ i : Position, i < s.width →
      out.getLsbD i.val =
        if entries.any (·.range.contains i) then v.getLsbD i.val else b.getLsbD i.val := by
  induction entries generalizing b with
  | nil => exact ⟨b, rfl, fun i _ => rfl⟩
  | cons first rest ih =>
    have holds := carried first List.mem_cons_self
    obtain ⟨out, written, bits⟩ := ih (fun e mem => carried e (List.mem_cons_of_mem _ mem))
      (b.replaced first.range (first.value.residue s))
    refine ⟨out, ?_, fun i small => ?_⟩
    · rw [Entry.writeAll, List.foldlM_cons, Entry.writeBack, Word.overwrite_within b _ holds.within,
        ok_bind]
      exact written
    · rw [bits i small, Word.replaced_bit b first.range _ holds.within small, List.any_cons]
      cases covered : first.range.contains i with
      | true => simp [holds.bits i covered]
      | false => simp

namespace Layout

variable {l : Layout}

/-- Whether some field of the layout has position `i`. -/
def covers (l : Layout) (i : Position) : Bool := l.fields.entries.any (·.2.range.contains i)

theorem any_entryIn_contains (v : Word s) (i : Position) :
    (l.fields.entries.map (entryIn v)).any (·.range.contains i) = l.covers i := by
  rw [covers, List.any_map]
  rfl

/-- Writing all entries of a decoded word into any other word, in any order, moves the covered bits
over and no others; where the fields cover the word, this restores it. -/
theorem decode_lossless (valid : l.Valid) (same : s.width = l.width) (v b : Word s) :
    ∃ entries, (l.decode v).value = .ok entries ∧ ∀ order : List Entry, order.Perm entries →
      ∃ out, Entry.writeAll b order = .ok out ∧
        (∀ i : Position, i < s.width →
          out.getLsbD i.val = if l.covers i then v.getLsbD i.val else b.getLsbD i.val) ∧
        ((∀ i : Position, i < s.width → l.covers i = true) → out = v) := by
  refine ⟨l.fields.entries.map (entryIn v), ?_, fun order shuffled => ?_⟩
  · rw [decode_of_valid valid same v]
  have carried : ∀ e ∈ order, e.Carries v := by
    intro e mem
    obtain ⟨field, inLayout, rfl⟩ := List.mem_map.1 (shuffled.mem_iff.1 mem)
    exact entryIn_carries v field (same ▸ valid.within field inLayout)
  obtain ⟨out, written, bits⟩ := writeAll_carried v order carried b
  have moved : ∀ i : Position, i < s.width →
      out.getLsbD i.val = if l.covers i then v.getLsbD i.val else b.getLsbD i.val := by
    intro i small
    rw [bits i small, shuffled.any_eq, any_entryIn_contains]
  refine ⟨out, written, moved, fun full => ?_⟩
  refine BitVec.eq_of_getLsbD_eq fun i small => ?_
  have inRange : i < 0x10000000000000000 :=
    Nat.lt_trans (Nat.lt_of_lt_of_le small s.bits_le) (by decide)
  have bit := moved ⟨i, inRange⟩ small
  rwa [if_pos (full ⟨i, inRange⟩ small)] at bit

/-- Two fields of an 8-bit word that share two positions and cover it, one of them signed: the
entries restore the word in reverse order, too. -/
theorem overlapping_restored_backwards :
    let overlapping : Layout :=
      ⟨⟨8, by decide⟩,
        ⟨[("high", ⟨⟨⟨3, by decide⟩, ⟨8, by decide⟩, by decide⟩, true⟩),
          ("low", ⟨⟨⟨0, by decide⟩, ⟨5, by decide⟩, by decide⟩, false⟩)], by decide⟩⟩
    ∃ entries, (overlapping.decode (s := .b8) 0xab#8).value = .ok entries ∧
      Entry.writeAll (s := .b8) 0x00#8 entries.reverse = .ok 0xab#8 := by
  intro overlapping
  have valid : overlapping.Valid := ⟨by decide, by decide⟩
  obtain ⟨entries, decoded, restored⟩ :=
    decode_lossless (s := .b8) valid rfl 0xab#8 0x00#8
  obtain ⟨out, written, -, whole⟩ := restored entries.reverse (List.reverse_perm entries)
  have covered : ∀ i : Position, i < WordSize.b8.width → overlapping.covers i = true := by
    intro i small
    have inWord : i.val < 8 := small
    simp only [covers, overlapping, List.any_cons, List.any_nil, BitRange.contains, Fin.le_def,
      Fin.lt_def, Bool.or_false, Bool.or_eq_true, Bool.and_eq_true, decide_eq_true_eq]
    omega
  exact ⟨entries, decoded, whole covered ▸ written⟩

end Layout

end WordFields
