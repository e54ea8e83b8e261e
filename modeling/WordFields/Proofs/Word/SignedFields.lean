import WordFields.Proofs.Layout.Decoding
import WordFields.Proofs.Word.SignExtension

/-!
# Signed fields are written and read back

A signed number is written by its residue modulo the word. All bits above the range are dropped,
which for a negative number are ones, and reading repeats the top bit of the range in their place.
So a number that the range can hold comes back, and what was read can be written back without a
change. A field is extended in 128 bits and a signed slice in the word itself; both give the number
of the bits of the range, or refuse it with the same error.
-/

set_option autoImplicit false

namespace WordFields

variable {s : WordSize}

namespace Word

/-- Where a value was written its lowest bits are read. -/
theorem extract_replaced (w value : Word s) {r : BitRange} (within : r.stop ≤ s.width) :
    BitVec.extractLsb' r.start.val r.length.val (w.replaced r value) =
      BitVec.setWidth r.length.val value := by
  refine BitVec.eq_of_getLsbD_eq fun k inRange => ?_
  obtain ⟨i, covered, place⟩ := BitRange.exists_contains inRange
  have bit := w.replaced_bit r value within (BitRange.lt_width_of_contains within covered)
  rw [if_pos covered, place, Nat.add_sub_cancel_left] at bit
  rw [BitVec.getLsbD_extractLsb', BitVec.getLsbD_setWidth, bit]

/-- A write of the bits that are there changes nothing. -/
theorem replaced_of_setWidth (w value : Word s) {r : BitRange} (within : r.stop ≤ s.width)
    (same : BitVec.setWidth r.length.val value =
      BitVec.extractLsb' r.start.val r.length.val w) : w.replaced r value = w := by
  have total := r.start_add_length
  refine eq_of_positions fun i inWord => ?_
  rw [replaced_bit w r value within inWord]
  split
  next covered =>
    obtain ⟨low, high⟩ := (r.contains_iff i).1 covered
    rw [Fin.le_def] at low
    rw [Fin.lt_def] at high
    have inRange : i.val - r.start.val < r.length.val := by omega
    have bit : (BitVec.setWidth r.length.val value).getLsbD (i.val - r.start.val) =
        (BitVec.extractLsb' r.start.val r.length.val w).getLsbD (i.val - r.start.val) := by
      rw [same]
    rw [BitVec.getLsbD_setWidth, BitVec.getLsbD_extractLsb', Nat.add_sub_cancel' low] at bit
    simpa [inRange] using bit
  next => rfl

/-- The residue of a signed number of `n` bits reads that number in its lowest `n` bits. -/
theorem readsSigned_ofInt {n : Nat} (inWord : n ≤ s.bits) {x : ℤ} (lower : -2 ^ (n - 1) ≤ x)
    (upper : x < 2 ^ (n - 1)) : ReadsSigned (BitVec.ofInt s.bits x) n x where
  lower := lower
  upper := upper
  congruent := by
    have cast : ((2 ^ s.bits : ℕ) : ℤ) = 2 ^ s.bits := by push_cast; rfl
    have residue : (((BitVec.ofInt s.bits x).toNat : ℕ) : ℤ) = x % 2 ^ s.bits := by
      have nonzero : (2 : ℤ) ^ s.bits ≠ 0 := pow_ne_zero _ two_ne_zero
      rw [BitVec.toNat_ofInt, cast, Int.toNat_of_nonneg (Int.emod_nonneg x nonzero)]
    rw [residue]
    exact ((Int.mod_modEq x (2 ^ s.bits)).of_dvd (pow_dvd_pow 2 inWord)).symm

/-- A number of the range's length is the signed reading of what its residue writes there. -/
theorem toInt_setWidth_ofInt {n : Nat} (positive : 0 < n) (inWord : n ≤ s.bits) {x : ℤ}
    (lower : -2 ^ (n - 1) ≤ x) (upper : x < 2 ^ (n - 1)) :
    (BitVec.setWidth n (BitVec.ofInt s.bits x)).toInt = x :=
  (readsSigned_toInt _ n).unique positive (readsSigned_ofInt inWord lower upper)

/-- The residue of what a slice reads has, in the lowest bits, the slice. -/
theorem setWidth_ofInt_toInt {n : Nat} (inWord : n ≤ s.bits) (bits : BitVec n) :
    BitVec.setWidth n (BitVec.ofInt s.bits bits.toInt) = bits := by
  refine BitVec.eq_of_getLsbD_eq fun k inRange => ?_
  change (BitVec.setWidth n (BitVec.signExtend s.bits bits)).getLsbD k = bits.getLsbD k
  rw [BitVec.getLsbD_setWidth, BitVec.getLsbD_signExtend, if_pos inRange]
  simp only [inRange, Nat.lt_of_lt_of_le inRange inWord, decide_true, Bool.true_and]

end Word

/-- A signed field and a signed slice give the same number, or the same error. -/
theorem Field.value_signed (w : Word s) (r : BitRange) :
    Field.value ⟨r, true⟩ w = .signed <$> w.signedSlice r := by
  rw [Field.value_eq, Word.signedSlice_eq]
  split
  · rfl
  · rfl

/-- A signed number that a range within the word can hold comes back from its residue written there,
as a signed slice and as the value of a signed field. Conversely what a signed slice reads is
written back without a change of the word. For every range, within the word or not, the signed field
gives the number of the signed slice, or the error of the signed slice. -/
theorem Word.signed_comes_back (v : Word s) (r : BitRange) :
    (r.stop ≤ s.width → ∀ x : ℤ, -2 ^ (r.length.val - 1) ≤ x → x < 2 ^ (r.length.val - 1) →
      ∃ out, v.overwrite r (BitVec.ofInt s.bits x) = .ok out ∧
        out.signedSlice r = .ok x ∧ Field.value ⟨r, true⟩ out = .ok (.signed x)) ∧
    (r.stop ≤ s.width →
      ∃ x, v.signedSlice r = .ok x ∧ v.overwrite r (BitVec.ofInt s.bits x) = .ok v) ∧
    Field.value ⟨r, true⟩ v = .signed <$> v.signedSlice r := by
  refine ⟨fun within x lower upper => ?_, fun within => ?_, Field.value_signed v r⟩
  · have read : (v.replaced r (BitVec.ofInt s.bits x)).signedSlice r = .ok x := by
      rw [signedSlice_within _ within, extract_replaced v _ within,
        toInt_setWidth_ofInt r.length_pos (BitRange.length_le within) lower upper]
    refine ⟨v.replaced r (BitVec.ofInt s.bits x), overwrite_within v _ within, read, ?_⟩
    rw [Field.value_signed, read, Outcome.map_ok]
  · let bits := BitVec.extractLsb' r.start.val r.length.val v
    have kept : v.replaced r (BitVec.ofInt s.bits bits.toInt) = v :=
      v.replaced_of_setWidth _ within (setWidth_ofInt_toInt (BitRange.length_le within) bits)
    refine ⟨bits.toInt, signedSlice_within v within, ?_⟩
    rw [overwrite_within v _ within, kept]

/-- In `0x27bd0018` the lowest 16 bits are 24. The residue of -24 is ones down to bit 5; at those 16
bits it makes the word `0x27bdffe8`, which reads -24 there. What a slice up to the top bit reads is
written back, and a range past the word is refused by the field as by the slice. -/
theorem Word.immediate_written_back :
    let imm : BitRange := ⟨⟨0, by decide⟩, ⟨16, by decide⟩, by decide⟩
    let top : BitRange := ⟨⟨26, by decide⟩, ⟨32, by decide⟩, by decide⟩
    let past : BitRange := ⟨⟨20, by decide⟩, ⟨33, by decide⟩, by decide⟩
    let w : Word .b32 := 0x27bd0018#32
    imm.stop ≤ WordSize.b32.width ∧ (-2 ^ (imm.length.val - 1) ≤ (-24 : ℤ)) ∧
      ((-24 : ℤ) < 2 ^ (imm.length.val - 1)) ∧
      (∃ out, w.overwrite imm (BitVec.ofInt 32 (-24)) = .ok out ∧ out = 0x27bdffe8#32 ∧
        out.signedSlice imm = .ok (-24)) ∧
      (∃ x, w.signedSlice top = .ok x ∧ w.overwrite top (BitVec.ofInt 32 x) = .ok w) ∧
      Field.value ⟨past, true⟩ w = .refuse (.outside ⟨33, by decide⟩ WordSize.b32.width) := by
  intro imm top past w
  have within : imm.stop ≤ WordSize.b32.width := by decide
  have lower : -2 ^ (imm.length.val - 1) ≤ (-24 : ℤ) := by decide
  have upper : (-24 : ℤ) < 2 ^ (imm.length.val - 1) := by decide
  obtain ⟨comesBack, -, -⟩ := signed_comes_back w imm
  obtain ⟨-, writtenBack, -⟩ := signed_comes_back w top
  obtain ⟨-, -, alike⟩ := signed_comes_back w past
  refine ⟨within, lower, upper, ?_, writtenBack (by decide), ?_⟩
  · obtain ⟨out, written, read, -⟩ := comesBack within (-24) lower upper
    exact ⟨out, written, Except.ok.inj (written.symm.trans (by decide)), read⟩
  · rw [alike]
    decide

end WordFields
