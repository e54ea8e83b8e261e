import Mathlib.Data.Nat.Bitwise
import WordFields.Proofs.Word.Bits

/-!
# Slices in numbers

Shifting a word right divides its number by a power of two, and a mask of the lowest bits takes the
remainder by one. A slice is therefore a quotient and a remainder of the word, and no more bits are
needed for it than its range has. The same number is found by walking over the range from the top
and collecting one bit at each step.
-/

set_option autoImplicit false

namespace WordFields.Word

variable {s : WordSize}

theorem bitLength_le_iff (w : Word s) (n : Nat) : w.bitLength ≤ n ↔ w.toNat < 2 ^ n := by
  unfold bitLength
  split
  · rename_i zero
    rw [zero]
    exact ⟨fun _ => Nat.two_pow_pos n, fun _ => Nat.zero_le n⟩
  · rename_i nonzero
    rw [Nat.add_one_le_iff, Nat.log2_lt nonzero]

/-- What is below the range is dropped by the division, and what is above it by the remainder. -/
theorem part_toNat (w : Word s) {r : BitRange} (within : r.stop ≤ s.width) :
    (w.part r).toNat = w.toNat / 2 ^ r.start.val % 2 ^ r.length.val := by
  rw [part, BitVec.toNat_setWidth_of_le (BitRange.length_le within), BitVec.extractLsb'_toNat,
    Nat.shiftRight_eq_div_pow]

/-- The bits of `w` from `start` on, `length` of them, collected one at a time from the highest
down: those that are there move up by one, and the next one comes in below them. -/
def collected (w : Word s) (start length : Nat) : Word s :=
  (List.range' start length).reverse.foldl
    (fun bits i => (bits <<< 1) ||| ((w >>> i) &&& ofBit s true)) (BitVec.zero s.bits)

theorem collected_succ (w : Word s) (start length : Nat) :
    w.collected start (length + 1) =
      (w.collected (start + 1) length <<< 1) ||| ((w >>> start) &&& ofBit s true) := by
  unfold collected
  rw [List.range'_succ, List.reverse_cons, List.foldl_append, List.foldl_cons, List.foldl_nil]

/-- The bit that came in last is the lowest one; a bit that came in before it has moved up. -/
theorem collected_bit (w : Word s) (start : Nat) {length : Nat} (small : length ≤ s.bits)
    (k : Nat) :
    (w.collected start length).getLsbD k = (decide (k < length) && w.getLsbD (start + k)) := by
  induction length generalizing start k with
  | zero => simp [collected]
  | succ length ih =>
    have positive := s.bits_pos
    rw [collected_succ, BitVec.getLsbD_or, BitVec.getLsbD_shiftLeft, BitVec.getLsbD_and, ofBit_bit,
      BitVec.getLsbD_ushiftRight]
    cases k with
    | zero => simp
    | succ k =>
      have behind : start + 1 + k = start + (k + 1) := by omega
      rw [Nat.add_sub_cancel, ih (start + 1) (by omega) k, behind]
      by_cases inRange : k < length
      · simp [inRange, show k + 1 < s.bits by omega]
      · simp [inRange]

/-- The reference walks over the widened word; what it collects is the slice. -/
theorem collected_zeroExtend (w : Word s) {r : BitRange} (within : r.stop ≤ s.width) :
    w.zeroExtend.collected r.start.val r.length.val = (w.part r).zeroExtend := by
  have bounds : r.stop.val ≤ s.bits := within
  have total := r.start_add_length
  have widest := s.bits_le
  have small : r.length.val ≤ WordSize.b128.bits := by
    show r.length.val ≤ 128
    omega
  refine BitVec.eq_of_getLsbD_eq fun i _ => ?_
  rw [collected_bit _ _ small, zeroExtend_bit, zeroExtend_bit, part_bit w within]

theorem slice_whole (w : Word s) : w.slice (.whole s) = .ok w := by
  have within : (BitRange.whole s).stop ≤ s.width := Fin.le_refl _
  rw [slice_within w within]
  refine congrArg Except.ok (BitVec.eq_of_getLsbD_eq fun i inWord => ?_)
  have inRange : i < (BitRange.whole s).length.val := inWord
  rw [part_bit w within, decide_eq_true inRange, Bool.true_and]
  exact congrArg w.getLsbD (Nat.zero_add i)

/-- A slice is refused exactly if its range ends past the word. Else it is the word divided by the
power of two of the start, modulo that of the length: the number that is collected from the widened
word bit by bit. It has the bits of the range at its lowest positions, clear bits above them, and
needs no more bits than the range has. The slice of all positions is the word. -/
theorem slice_in_numbers (w : Word s) (r : BitRange) :
    (s.width < r.stop → w.slice r = .refuse (.outside r.stop s.width)) ∧
    (r.stop ≤ s.width → ∃ u, w.slice r = .ok u ∧
      u.toNat = w.toNat / 2 ^ r.start.val % 2 ^ (r.stop.val - r.start.val) ∧
      u.zeroExtend = w.zeroExtend.collected r.start.val (r.stop.val - r.start.val) ∧
      (∀ j, j < r.stop.val - r.start.val → u.getLsbD j = w.getLsbD (r.start.val + j)) ∧
      (∀ j, r.stop.val - r.start.val ≤ j → u.getLsbD j = false) ∧
      u.bitLength ≤ r.stop.val - r.start.val) ∧
    w.slice (.whole s) = .ok w := by
  refine ⟨fun past => ?_, fun within => ?_, w.slice_whole⟩
  · rw [slice_eq, if_neg (Fin.not_le.2 past)]
  · have number := w.part_toNat within
    refine ⟨w.part r, ?_, number, ?_, fun j inRange => ?_, fun j above => ?_, ?_⟩
    · rw [slice_eq, if_pos within]
    · exact (w.collected_zeroExtend within).symm
    · have inLength : j < r.length.val := inRange
      simp [part_bit w within, inLength]
    · have pastLength : ¬ j < r.length.val := Nat.not_lt.2 above
      simp [part_bit w within, pastLength]
    · rw [bitLength_le_iff, number]
      exact Nat.mod_lt _ (Nat.two_pow_pos _)

/-- The upper half of `0xdeadbeef` is what its bits from 16 to 32 collect, and no bit is left to be
taken at 32. -/
theorem upper_half_sliced :
    let upper : BitRange := ⟨⟨16, by decide⟩, ⟨32, by decide⟩, by decide⟩
    let past : BitRange := ⟨⟨28, by decide⟩, ⟨33, by decide⟩, by decide⟩
    (∃ u, slice (s := .b32) 0xdeadbeef#32 upper = .ok u ∧ u.toNat = 0xdead ∧
      u.zeroExtend = (zeroExtend (s := .b32) 0xdeadbeef#32).collected 16 16) ∧
    slice (s := .b32) 0xdeadbeef#32 past =
      .refuse (.outside ⟨33, by decide⟩ WordSize.b32.width) := by
  intro upper past
  constructor
  · obtain ⟨u, taken, number, collects, -⟩ :=
      (slice_in_numbers (s := .b32) 0xdeadbeef#32 upper).2.1 (by decide)
    exact ⟨u, taken, number.trans (by decide), collects⟩
  · exact (slice_in_numbers (s := .b32) 0xdeadbeef#32 past).1 (by decide)

end WordFields.Word
