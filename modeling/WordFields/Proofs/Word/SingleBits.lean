import WordFields.Proofs.Faultless

/-!
# A bit is a range of one position

Single bits are read and replaced by operations of their own, with a mask of one bit and no range.
They do what the operations on ranges do at the range of that one position, where the value is 0 or
1. Past the word both refuse: the bit by its own position, the range by the one behind it, and the
last position of all has none behind it.
-/

set_option autoImplicit false

namespace WordFields

variable {s : WordSize}

namespace BitRange

/-- The range starts at `index` and ends behind it. -/
structure OnlyHolds (r : BitRange) (index : Position) : Prop where
  start : r.start = index
  stop : r.stop.val = index.val + 1

theorem single_onlyHolds {index : Position} {r : BitRange} (made : single index = .ok r) :
    r.OnlyHolds index where
  start := by
    unfold single at made
    split at made
    · cases made
      rfl
    · cases made
  stop := single_stop made

/-- Every position but the last has a range of its own. -/
theorem exists_single {index : Position} (notLast : index.val ≠ 0xffffffffffffffff) :
    ∃ r, single index = .ok r ∧ r.OnlyHolds index := by
  obtain ⟨r, made⟩ := (single_decides index).accepts notLast
  exact ⟨r, made, single_onlyHolds made⟩

theorem single_last {index : Position} (last : index.val = 0xffffffffffffffff) :
    single index = .refuse (.outside index WordSize.b128.width) := by
  have none := Position.next?_eq_none_iff.2 last
  unfold single
  split
  · simp_all
  · rfl

namespace OnlyHolds

variable {r : BitRange} {index : Position}

theorem length (only : r.OnlyHolds index) : r.length.val = 1 := by
  have total := r.start_add_length
  rw [only.start, only.stop] at total
  omega

theorem contains_iff (only : r.OnlyHolds index) (i : Position) :
    r.contains i = true ↔ index = i := by
  have stop := only.stop
  rw [BitRange.contains_iff, only.start, Fin.le_def, Fin.lt_def, Fin.ext_iff]
  omega

theorem within_iff (only : r.OnlyHolds index) : r.stop ≤ s.width ↔ index < s.width := by
  rw [Fin.le_def, Fin.lt_def, only.stop]
  omega

end OnlyHolds

end BitRange

namespace Word

theorem ofBit_toNat (bit : Bool) : (ofBit s bit).toNat = bit.toNat := by
  have positive := s.bits_pos
  cases bit <;> simp [ofBit, positive]

/-- A word of 0 or 1 is a bit with nothing above it. -/
theorem eq_ofBit {value : Word s} {bit : Bool} (number : value.toNat = bit.toNat) :
    value = ofBit s bit := by
  apply BitVec.eq_of_toNat_eq
  rw [number, ofBit_toNat]

section Single

variable (w : Word s) {r : BitRange} {index : Position}

theorem part_single (only : r.OnlyHolds index) (inWord : index < s.width) :
    w.part r = ofBit s (w.getLsbD index.val) := by
  apply BitVec.eq_of_getLsbD_eq
  intro k _
  rw [part_bit w (only.within_iff.2 inWord), ofBit_bit, only.length, only.start]
  cases k <;> simp

/-- The range and the bit leave the same hole, and the same bit fills it. -/
theorem replaced_single (only : r.OnlyHolds index) (inWord : index < s.width) (bit : Bool) :
    w.replaced r (ofBit s bit) = w.withBit index bit := by
  apply eq_of_positions
  intro i small
  rw [replaced_bit w r _ (only.within_iff.2 inWord) small, withBit_bit w index bit small]
  by_cases same : index = i
  · have covered := (only.contains_iff i).2 same
    have lowest : i.val - r.start.val = 0 := by rw [only.start, same, Nat.sub_self]
    simp [covered, same, lowest, ofBit_bit]
  · have uncovered : ¬ r.contains i = true := fun covered => same ((only.contains_iff i).1 covered)
    simp [uncovered, same]

/-- A bit always fits into a range. -/
theorem put_single (only : r.OnlyHolds index) (inWord : index < s.width) (bit : Bool) :
    w.put r (ofBit s bit) = .ok (w.withBit index bit) := by
  have short : (ofBit s bit).bitLength ≤ r.length.val := by
    rw [bitLength_le_iff, ofBit_toNat, only.length]
    exact bit.toNat_lt
  rw [put_eq, if_pos (only.within_iff.2 inWord), if_neg (Nat.not_lt.2 short),
    replaced_single w only inWord]

theorem overwrite_single (only : r.OnlyHolds index) (inWord : index < s.width) (bit : Bool) :
    w.overwrite r (ofBit s bit) = .ok (w.withBit index bit) := by
  rw [overwrite_within w _ (only.within_iff.2 inWord), replaced_single w only inWord]

/-- Of two bits put at one position the later one stays. -/
theorem withBit_withBit (index : Position) (first second : Bool) :
    (w.withBit index first).withBit index second = w.withBit index second := by
  apply eq_of_positions
  intro i small
  simp only [withBit_bit _ index _ small]
  split <;> rfl

theorem withBit_own (index : Position) : w.withBit index (w.getLsbD index.val) = w := by
  apply eq_of_positions
  intro i small
  rw [withBit_bit w index _ small]
  split
  · rename_i same
    rw [same]
  · rfl

end Single

/-- Within the word a bit is read as what is at the range of its position, 1 for a set bit and 0 for
a clear one; a bit is put there as the word 0 or 1 is, whether that is checked or not; and whatever
was put, putting the bit back that was read before restores the word. Past the word a bit is refused
by its position and its range by the one behind it, whatever is to be put there; the last position
has no range and is refused as one that no word has. -/
theorem bits_are_single_ranges (w : Word s) (index : Position) :
    (index < s.width → ∃ r old, BitRange.single index = .ok r ∧ w.getBit index = .ok old ∧
      (∃ u, w.slice r = .ok u ∧
        (w.getBit index = .ok true ↔ u.toNat = 1) ∧ (w.getBit index = .ok false ↔ u.toNat = 0)) ∧
      (∀ (bit : Bool) (value : Word s), value.toNat = bit.toNat → ∃ out,
        w.putBit index bit = .ok out ∧ w.put r value = .ok out ∧ w.overwrite r value = .ok out ∧
          out.putBit index old = .ok w) ∧
      w.putBit index old = .ok w) ∧
    (s.width ≤ index →
      w.getBit index = .refuse (.outside index s.width) ∧
      (∀ bit, w.putBit index bit = .refuse (.outside index s.width)) ∧
      (index.val ≠ 0xffffffffffffffff → ∃ r behind, BitRange.single index = .ok r ∧
        behind.val = index.val + 1 ∧
        w.slice r = .refuse (.outside behind s.width) ∧
        w.signedSlice r = .refuse (.outside behind s.width) ∧
        (RangeError.outside behind s.width).message =
          s!"bit {behind.val} is out of range for a {s.width.val}-bit word" ∧
        ∀ value, w.put r value = .refuse (.outside behind s.width) ∧
          w.overwrite r value = .stop (.refused (RangeError.outside behind s.width).message)) ∧
      (index.val = 0xffffffffffffffff →
        BitRange.single index = .refuse (.outside index WordSize.b128.width))) := by
  constructor
  · intro inWord
    have notLast : index.val ≠ 0xffffffffffffffff := by
      have small : index.val < s.bits := inWord
      have widest := s.bits_le
      omega
    obtain ⟨r, made, only⟩ := BitRange.exists_single notLast
    have read : w.getBit index = .ok (w.getLsbD index.val) := by rw [getBit_eq, if_pos inWord]
    have write (v : Word s) (bit : Bool) : v.putBit index bit = .ok (v.withBit index bit) := by
      rw [putBit_eq, if_pos inWord]
    refine ⟨r, w.getLsbD index.val, made, read, ⟨w.part r, ?_, ?_⟩, ?_, ?_⟩
    · exact slice_within w (only.within_iff.2 inWord)
    · rw [read, part_single w only inWord, ofBit_toNat]
      cases w.getLsbD index.val <;> simp
    · intro bit value number
      rw [eq_ofBit number]
      refine ⟨w.withBit index bit, write w bit, put_single w only inWord bit,
        overwrite_single w only inWord bit, ?_⟩
      rw [write, withBit_withBit, withBit_own]
    · rw [write, withBit_own]
  · intro past
    have outside : ¬ index < s.width := Fin.not_lt.2 past
    refine ⟨?_, ?_, ?_, BitRange.single_last⟩
    · rw [getBit_eq, if_neg outside]
    · intro bit
      rw [putBit_eq, if_neg outside]
    · intro notLast
      obtain ⟨r, made, only⟩ := BitRange.exists_single notLast
      have rangeOutside : ¬ r.stop ≤ s.width := fun within => outside (only.within_iff.1 within)
      refine ⟨r, r.stop, made, only.stop, ?_, ?_, rfl, ?_⟩
      · rw [slice_eq, if_neg rangeOutside]
      · rw [signedSlice_eq, if_neg rangeOutside]
      · intro value
        rw [put_eq, overwrite_eq, if_neg rangeOutside, if_neg rangeOutside]
        exact ⟨rfl, rfl⟩

/-- Bit 5 of `0xab` is set, and so the range of that position reads 1; a 0 put there by range clears
it. Position 8 is refused as a bit and its range is refused by position 9, with a text that tells
that, and the last position has no range. -/
theorem bit_of_byte_by_range :
    let w : Word .b8 := 0xab#8
    let five : Position := ⟨5, by decide⟩
    let eight : Position := ⟨8, by decide⟩
    let last : Position := ⟨0xffffffffffffffff, by decide⟩
    (∃ r u out, BitRange.single five = .ok r ∧ w.slice r = .ok u ∧ u.toNat = 1 ∧
      w.put r 0#8 = .ok out ∧ w.putBit five false = .ok out ∧ out.putBit five true = .ok w) ∧
    w.getBit eight = .refuse (.outside eight WordSize.b8.width) ∧
    (∃ r, BitRange.single eight = .ok r ∧
      w.slice r = .refuse (.outside ⟨9, by decide⟩ WordSize.b8.width) ∧
      w.overwrite r 0#8 = .stop (.refused "bit 9 is out of range for a 8-bit word")) ∧
    w.getBit last = .refuse (.outside last WordSize.b8.width) ∧
    BitRange.single last = .refuse (.outside last WordSize.b128.width) := by
  intro w five eight last
  have set : w.getBit five = .ok true := by decide
  obtain ⟨r, old, made, read, ⟨u, taken, one, -⟩, writes, -⟩ :=
    (bits_are_single_ranges w five).1 (by decide)
  obtain ⟨out, byBit, byRange, -, restored⟩ := writes false 0#8 rfl
  have wasSet : old = true := Except.ok.inj (read.symm.trans set)
  rw [wasSet] at restored
  obtain ⟨refused, -, pastRange, -⟩ := (bits_are_single_ranges w eight).2 (by decide)
  obtain ⟨rPast, behind, madePast, isBehind, notTaken, -, wording, notPut⟩ := pastRange (by decide)
  have nine : behind = ⟨9, by decide⟩ := Fin.ext isBehind
  subst nine
  have text : (RangeError.outside ⟨9, by decide⟩ WordSize.b8.width).message =
      "bit 9 is out of range for a 8-bit word" := wording.trans (by decide)
  have stopped := (notPut 0#8).2
  rw [text] at stopped
  obtain ⟨refusedLast, -, -, noRange⟩ := (bits_are_single_ranges w last).2 (by decide)
  exact ⟨⟨r, u, out, made, taken, one.1 set, byRange, byBit, restored⟩, refused,
    ⟨rPast, madePast, notTaken, stopped⟩, refusedLast, noRange rfl⟩

end Word

end WordFields
