import WordFields.Proofs.Outcome
import WordFields.Word.Put

/-!
# Word operations bit by bit

Every operation succeeds exactly when its positions lie within the word, and then its result is a
word without shifts by the width, masks or faults. What these words are is said one bit at a time.
-/

set_option autoImplicit false

namespace WordFields

namespace BitRange

theorem ofBounds_of_lt {start stop : Position} (ordered : start < stop) :
    ofBounds start stop = .ok ⟨start, stop, ordered⟩ := dif_pos ordered

theorem ofBounds_of_not_lt {start stop : Position} (unordered : ¬ start < stop) :
    ofBounds start stop = .refuse (.reversed start stop) := dif_neg unordered

/-- Ranges meet if and only if they have a position in common: the larger of the two starts. -/
theorem meets_iff (r q : BitRange) :
    r.meets q = true ↔ ∃ i, r.contains i = true ∧ q.contains i = true := by
  have properR := r.val_start_lt
  have properQ := q.val_start_lt
  simp only [meets, contains_iff, Bool.and_eq_true, decide_eq_true_eq, Fin.lt_def, Fin.le_def]
  constructor
  · intro meet
    rcases Nat.le_total r.start.val q.start.val with rFirst | qFirst
    · exact ⟨q.start, by omega⟩
    · exact ⟨r.start, by omega⟩
  · rintro ⟨i, inR, inQ⟩
    omega

/-- The positions of a range, counted from its start. -/
theorem exists_contains {r : BitRange} {k : Nat} (inRange : k < r.length.val) :
    ∃ i : Position, r.contains i = true ∧ i.val = r.start.val + k := by
  have total := r.start_add_length
  refine ⟨⟨r.start.val + k, by omega⟩, ?_, rfl⟩
  rw [contains_iff, Fin.le_def, Fin.lt_def]
  dsimp only
  omega

/-- A position of a range within the word is one of the word. -/
theorem lt_width_of_contains {s : WordSize} {r : BitRange} (within : r.stop ≤ s.width)
    {i : Position} (inRange : r.contains i = true) : i < s.width :=
  Fin.lt_of_lt_of_le ((r.contains_iff i).1 inRange).2 within

/-- A range within the word is no longer than the word. -/
theorem length_le {s : WordSize} {r : BitRange} (within : r.stop ≤ s.width) :
    r.length.val ≤ s.bits :=
  Nat.le_trans (Nat.sub_le _ _) within

/-- The mask of a range of `length` positions, made without a fault. -/
def maskWord (r : BitRange) (s : WordSize) : Word s :=
  BitVec.allOnes s.bits >>> (s.bits - r.length.val)

theorem mask_within {s : WordSize} {ε : Type} (r : BitRange) (within : r.stop ≤ s.width) :
    r.mask (ε := ε) s = .ok (r.maskWord s) := by
  have bounds : r.stop.val ≤ s.bits := within
  have total := r.start_add_length
  have positive := r.length_pos
  unfold mask
  rw [if_pos within, Position.sub_of_le (by rw [Fin.le_def, WordSize.val_width]; omega),
    ok_bind]
  unfold Word.shr
  rw [if_pos (by rw [Fin.lt_def]; simp only [WordSize.val_width]; omega)]
  rfl

theorem maskWord_bit {s : WordSize} (r : BitRange) (within : r.stop ≤ s.width) (i : Nat) :
    (r.maskWord s).getLsbD i = decide (i < r.length.val) := by
  have bounds : r.stop.val ≤ s.bits := within
  have total := r.start_add_length
  rw [maskWord, BitVec.getLsbD_ushiftRight, BitVec.getLsbD_allOnes]
  simp only [decide_eq_decide]
  omega

end BitRange

namespace Word

variable {s : WordSize}

theorem shl_of_lt {ε : Type} (w : Word s) {n : Position} (below : n < s.width) :
    w.shl (ε := ε) n = .ok (w <<< n.val) := if_pos below

theorem shr_of_lt {ε : Type} (w : Word s) {n : Position} (below : n < s.width) :
    w.shr (ε := ε) n = .ok (w >>> n.val) := if_pos below

/-- Words with the same bit at every position are the same. -/
theorem eq_of_positions {v w : Word s}
    (agree : ∀ i : Position, i < s.width → v.getLsbD i.val = w.getLsbD i.val) : v = w := by
  refine BitVec.eq_of_getLsbD_eq fun k small => ?_
  have isPosition : k < 0x10000000000000000 := by
    have widest := s.bits_le
    omega
  exact agree ⟨k, isPosition⟩ small

/-- A range within the word starts below its width, so a shift to the start is no fault. -/
theorem start_lt_width {r : BitRange} (within : r.stop ≤ s.width) : r.start < s.width :=
  Fin.lt_of_lt_of_le r.start_lt_stop within

/-- The widest word has all positions of any other. -/
theorem within_widest {r : BitRange} (within : r.stop ≤ s.width) :
    r.stop ≤ WordSize.b128.width :=
  Fin.le_def.2 (Nat.le_trans within s.bits_le)

theorem ofBit_bit (bit : Bool) (i : Nat) : (ofBit s bit).getLsbD i = (decide (i = 0) && bit) := by
  have positive := s.bits_pos
  cases bit <;> cases i <;> simp [ofBit, positive]

/-- Comparing the lowest bit with 1 gives that bit, whatever stands above it. -/
theorem lowest_beq_one (w : Word s) :
    (w &&& ofBit s true == ofBit s true) = w.getLsbD 0 := by
  have one : (ofBit s true).getLsbD 0 = true := ofBit_bit true 0
  rw [Bool.eq_iff_iff, beq_iff_eq]
  constructor
  · intro same
    have lowest := congrArg (fun v => BitVec.getLsbD v 0) same
    simpa [BitVec.getLsbD_and, one] using lowest
  · intro set
    refine BitVec.eq_of_getLsbD_eq fun i _ => ?_
    rw [BitVec.getLsbD_and, ofBit_bit]
    by_cases lowest : i = 0
    · simp [lowest, set]
    · simp [lowest]

theorem getBit_eq (w : Word s) (index : Position) :
    w.getBit index = if index < s.width then .ok (w.getLsbD index.val)
      else .refuse (.outside index s.width) := by
  unfold getBit
  split
  · rename_i small
    rw [shr_of_lt w small, ok_bind, lowest_beq_one, BitVec.getLsbD_ushiftRight, Nat.add_zero]
    rfl
  · rfl

/-- The bits of `r`, right aligned in a word of the same size. -/
def part (w : Word s) (r : BitRange) : Word s :=
  (BitVec.extractLsb' r.start.val r.length.val w).setWidth s.bits

theorem part_bit (w : Word s) {r : BitRange} (within : r.stop ≤ s.width) (i : Nat) :
    (w.part r).getLsbD i = (decide (i < r.length.val) && w.getLsbD (r.start.val + i)) := by
  have bounds : r.stop.val ≤ s.bits := within
  have total := r.start_add_length
  rw [part, BitVec.getLsbD_setWidth, BitVec.getLsbD_extractLsb']
  by_cases inRange : i < r.length.val
  · simp [inRange, show i < s.bits by omega]
  · simp [inRange]

theorem zeroExtend_bit (w : Word s) (i : Nat) : w.zeroExtend.getLsbD i = w.getLsbD i := by
  change (BitVec.setWidth 128 w).getLsbD i = w.getLsbD i
  rw [BitVec.getLsbD_setWidth]
  by_cases small : i < 128
  · simp [small]
  · have past : s.bits ≤ i := Nat.le_trans s.bits_le (Nat.le_of_not_lt small)
    simp [small, BitVec.getLsbD_of_ge w i past]

theorem slice_eq (w : Word s) (r : BitRange) :
    w.slice r = if r.stop ≤ s.width then .ok (w.part r)
      else .refuse (.outside r.stop s.width) := by
  unfold slice BitRange.within
  split
  · rename_i within
    rw [ok_bind, shr_of_lt w (start_lt_width within), ok_bind,
      r.mask_within within, ok_bind]
    refine congrArg Except.ok (BitVec.eq_of_getLsbD_eq fun i _ => ?_)
    rw [BitVec.getLsbD_and, r.maskWord_bit within, part_bit w within, BitVec.getLsbD_ushiftRight,
      Bool.and_comm]
  · rfl

theorem slice_within (w : Word s) {r : BitRange} (within : r.stop ≤ s.width) :
    w.slice r = .ok (w.part r) := by
  rw [slice_eq, if_pos within]

theorem sliceBetween_of_lt (w : Word s) {start stop : Position} (ordered : start < stop) :
    w.sliceBetween start stop = w.slice ⟨start, stop, ordered⟩ := by
  rw [sliceBetween, BitRange.ofBounds_of_lt ordered, ok_bind]

theorem sliceBetween_of_not_lt (w : Word s) {start stop : Position} (unordered : ¬ start < stop) :
    w.sliceBetween start stop = .refuse (.reversed start stop) := by
  rw [sliceBetween, BitRange.ofBounds_of_not_lt unordered, Outcome.refuse_bind]

/-- Lifting the lowest `n` bits to the top and shifting back repeats the highest of them. -/
theorem sshiftRight_shiftLeft (w : Word s) (n : Nat) (positive : 0 < n) (small : n ≤ s.bits) :
    (w <<< (s.bits - n)).sshiftRight (s.bits - n) = (BitVec.setWidth n w).signExtend s.bits := by
  refine BitVec.eq_of_getLsbD_eq fun i inWord => ?_
  rw [BitVec.getLsbD_sshiftRight, BitVec.getLsbD_signExtend]
  have notPast : ¬ s.bits ≤ i := by omega
  simp only [notPast, decide_false, Bool.not_false, Bool.true_and, inWord, decide_true]
  by_cases low : i < n
  · rw [if_pos (by omega : s.bits - n + i < s.bits), if_pos low, BitVec.getLsbD_shiftLeft,
      BitVec.getLsbD_setWidth, Nat.add_sub_cancel_left]
    simp only [low, show s.bits - n + i < s.bits by omega,
      show ¬ s.bits - n + i < s.bits - n by omega, decide_true, decide_false, Bool.not_false,
      Bool.true_and]
  · rw [if_neg (by omega : ¬ s.bits - n + i < s.bits), if_neg low, BitVec.msb_eq_getLsbD_last,
      BitVec.msb_eq_getLsbD_last, BitVec.getLsbD_shiftLeft, BitVec.getLsbD_setWidth]
    have top : s.bits - 1 - (s.bits - n) = n - 1 := by omega
    simp [top, show s.bits - 1 < s.bits by omega, show ¬ s.bits - 1 < s.bits - n by omega,
      show n - 1 < n by omega]

theorem lowSigned_eq (w : Word s) (n : Position) :
    w.lowSigned n = if n.val = 0 ∨ s.width < n then .refuse (.outside n s.width)
      else .ok (BitVec.setWidth n.val w).toInt := by
  unfold lowSigned
  split
  · rfl
  · rename_i accepted
    obtain ⟨nonzero, small⟩ := not_or.1 accepted
    have bounds : n.val ≤ s.bits := Fin.not_lt.1 small
    have shiftable : (⟨s.width.val - n.val, by omega⟩ : Position) < s.width := by
      rw [Fin.lt_def]
      simp only [WordSize.val_width]
      omega
    rw [Position.sub_of_le bounds, ok_bind, shl_of_lt _ shiftable, ok_bind,
      sar, if_pos shiftable]
    simp only [WordSize.val_width]
    rw [sshiftRight_shiftLeft w n.val (by omega) bounds, BitVec.toInt_signExtend_of_le bounds]

theorem lowSigned_of_accepted (w : Word s) {n : Position} (positive : 0 < n.val)
    (inWord : n ≤ s.width) : w.lowSigned n = .ok (BitVec.setWidth n.val w).toInt := by
  rw [lowSigned_eq, if_neg]
  exact not_or.2 ⟨Nat.ne_of_gt positive, Fin.not_lt.2 inWord⟩

/-- The length of a range within the word is a width that sign extension takes. -/
theorem length_accepted {r : BitRange} (within : r.stop ≤ s.width) :
    ¬ (r.length.val = 0 ∨ s.width < r.length) := by
  have bounds : r.stop.val ≤ s.bits := within
  have total := r.start_add_length
  have positive := r.length_pos
  rw [Fin.lt_def, WordSize.val_width]
  omega

/-- A signed slice is the two's complement reading of the bits of `r`. -/
theorem signedSlice_eq (w : Word s) (r : BitRange) :
    w.signedSlice r = if r.stop ≤ s.width then
        .ok (BitVec.extractLsb' r.start.val r.length.val w).toInt
      else .refuse (.outside r.stop s.width) := by
  unfold signedSlice
  rw [slice_eq]
  split
  · rename_i within
    have bounds : r.stop.val ≤ s.bits := within
    have total := r.start_add_length
    rw [ok_bind, lowSigned_eq, if_neg (length_accepted within), part,
      BitVec.setWidth_setWidth_of_le _ (by omega), BitVec.setWidth_eq]
  · rfl

theorem signedSlice_within (w : Word s) {r : BitRange} (within : r.stop ≤ s.width) :
    w.signedSlice r = .ok (BitVec.extractLsb' r.start.val r.length.val w).toInt := by
  rw [signedSlice_eq, if_pos within]

/-- The word with the bits of `r` replaced by the lowest bits of `value`. -/
def replaced (w : Word s) (r : BitRange) (value : Word s) : Word s :=
  (w &&& ~~~(r.maskWord s <<< r.start.val)) ||| ((value &&& r.maskWord s) <<< r.start.val)

theorem replaced_bit (w : Word s) (r : BitRange) (value : Word s) (within : r.stop ≤ s.width)
    {i : Position} (small : i < s.width) :
    (w.replaced r value).getLsbD i.val =
      if r.contains i then value.getLsbD (i.val - r.start.val) else w.getLsbD i.val := by
  have inWord : i.val < s.bits := small
  have total := r.start_add_length
  simp only [replaced, BitVec.getLsbD_or, BitVec.getLsbD_and, BitVec.getLsbD_not,
    BitVec.getLsbD_shiftLeft, r.maskWord_bit within, inWord, decide_true, Bool.true_and]
  -- Below the start, inside and past the end, both the hole and what fills it are constant.
  by_cases below : i.val < r.start.val
  · have outside : r.contains i = false := by
      simp only [BitRange.contains, Bool.and_eq_false_iff, decide_eq_false_iff_not, Fin.le_def]
      exact Or.inl (by omega)
    simp [below, outside]
  · by_cases inside : i.val < r.stop.val
    · have covered : r.contains i = true :=
        (r.contains_iff i).2 ⟨by rw [Fin.le_def]; omega, inside⟩
      simp [below, covered, show i.val - r.start.val < r.length.val by omega]
    · have outside : r.contains i = false := by
        simp only [BitRange.contains, Bool.and_eq_false_iff, decide_eq_false_iff_not, Fin.lt_def]
        exact Or.inr inside
      simp [below, outside, show ¬ i.val - r.start.val < r.length.val by omega]

theorem overwrite_eq (w : Word s) (r : BitRange) (value : Word s) :
    w.overwrite r value = if r.stop ≤ s.width then .ok (w.replaced r value)
      else .stop (.refused (RangeError.message (.outside r.stop s.width))) := by
  unfold overwrite BitRange.within
  split
  · rename_i within
    have shiftable := start_lt_width within
    rw [Outcome.demand_ok, ok_bind, r.mask_within within, ok_bind,
      shl_of_lt _ shiftable, ok_bind, shl_of_lt _ shiftable, ok_bind]
    rfl
  · rfl

theorem overwrite_within (w : Word s) {r : BitRange} (value : Word s)
    (within : r.stop ≤ s.width) : w.overwrite r value = .ok (w.replaced r value) := by
  rw [overwrite_eq, if_pos within]

theorem put_eq (w : Word s) (r : BitRange) (value : Word s) :
    w.put r value = if r.stop ≤ s.width then
        if r.length.val < value.bitLength then .refuse (.tooWide value.bitLength r.length)
        else .ok (w.replaced r value)
      else .refuse (.outside r.stop s.width) := by
  unfold put BitRange.within
  split
  · rename_i within
    rw [ok_bind, overwrite_within w value within]
  · rfl

/-- The word with bit `index` replaced. -/
def withBit (w : Word s) (index : Position) (bit : Bool) : Word s :=
  (w &&& ~~~(ofBit s true <<< index.val)) ||| (ofBit s bit <<< index.val)

theorem withBit_bit (w : Word s) (index : Position) (bit : Bool) {i : Position}
    (small : i < s.width) :
    (w.withBit index bit).getLsbD i.val = if index = i then bit else w.getLsbD i.val := by
  have inWord : i.val < s.bits := small
  simp only [withBit, BitVec.getLsbD_or, BitVec.getLsbD_and, BitVec.getLsbD_not,
    BitVec.getLsbD_shiftLeft, ofBit_bit, inWord, decide_true, Bool.true_and]
  by_cases same : index = i
  · subst same
    simp
  · have apart : index.val ≠ i.val := fun equal => same (Fin.ext equal)
    by_cases below : i.val < index.val
    · simp [below, same]
    · simp [below, same, show i.val - index.val ≠ 0 by omega]

theorem putBit_eq (w : Word s) (index : Position) (bit : Bool) :
    w.putBit index bit = if index < s.width then .ok (w.withBit index bit)
      else .refuse (.outside index s.width) := by
  unfold putBit
  split
  · rename_i small
    rw [shl_of_lt _ small, ok_bind, shl_of_lt _ small, ok_bind]
    rfl
  · rfl

end Word

end WordFields
