import Mathlib.Data.Int.ModEq
import WordFields.Proofs.Word.Slicing

/-!
# Sign extension is the two's complement of the lowest bits

Among the numbers of `n` bits with a sign there is exactly one that differs from a word by a
multiple of `2 ^ n`. Shifting the lowest `n` bits to the top of the word and back with the sign
gives that one, whatever stands above them. For a slice it is the slice itself, or if its highest
bit is set the slice less the power of two of its length.
-/

set_option autoImplicit false

namespace WordFields.Word

variable {s : WordSize}

/-- The lowest `n` bits of `w` read `x`: a signed number of `n` bits that is `w` modulo `2 ^ n`. -/
structure ReadsSigned (w : Word s) (n : Nat) (x : ℤ) : Prop where
  lower : -2 ^ (n - 1) ≤ x
  upper : x < 2 ^ (n - 1)
  congruent : x ≡ w.toNat [ZMOD 2 ^ n]

theorem readsSigned_toInt (w : Word s) (n : Nat) : w.ReadsSigned n (BitVec.setWidth n w).toInt where
  lower := BitVec.le_toInt _
  upper := BitVec.toInt_lt
  congruent := by
    have cast : ((2 ^ n : ℕ) : ℤ) = 2 ^ n := by push_cast; rfl
    rw [Int.ModEq, BitVec.toInt_eq_toNat_bmod, BitVec.toNat_setWidth, ← cast, Int.bmod_emod,
      Int.natCast_mod, Int.emod_emod]

/-- Two such numbers differ by less than `2 ^ n`, and by a multiple of it. -/
theorem ReadsSigned.unique {w : Word s} {n : Nat} (positive : 0 < n) {x y : ℤ}
    (readsX : w.ReadsSigned n x) (readsY : w.ReadsSigned n y) : x = y := by
  have double : (2 : ℤ) ^ n = 2 * 2 ^ (n - 1) := (mul_pow_sub_one positive.ne' 2).symm
  have divides : (2 : ℤ) ^ n ∣ x - y := (readsY.congruent.trans readsX.congruent.symm).dvd
  have close : |x - y| < 2 ^ n := by
    have lowerX := readsX.lower
    have upperX := readsX.upper
    have lowerY := readsY.lower
    have upperY := readsY.upper
    rw [abs_lt, double]
    omega
  have same := Int.eq_zero_of_abs_lt_dvd divides close
  omega

/-- The signed number of a slice, by its highest bit. -/
theorem toInt_extractLsb' (w : Word s) {r : BitRange} (within : r.stop ≤ s.width) :
    (BitVec.extractLsb' r.start.val r.length.val w).toInt =
      if (w.part r).toNat < 2 ^ (r.length.val - 1) then ((w.part r).toNat : ℤ)
      else (w.part r).toNat - 2 ^ r.length.val := by
  have positive := r.length_pos
  have double : 2 ^ r.length.val = 2 * 2 ^ (r.length.val - 1) :=
    (mul_pow_sub_one positive.ne' 2).symm
  have number : (BitVec.extractLsb' r.start.val r.length.val w).toNat = (w.part r).toNat := by
    rw [part_toNat w within, BitVec.extractLsb'_toNat, Nat.shiftRight_eq_div_pow]
  rw [BitVec.toInt_eq_toNat_cond, number]
  by_cases small : (w.part r).toNat < 2 ^ (r.length.val - 1)
  · rw [if_pos small, if_pos (by omega)]
  · rw [if_neg small, if_neg (by omega)]
    push_cast
    rfl

/-- Sign extension takes the widths from one bit to the whole word and gives the one signed number
of that width that the lowest bits of the word read. A signed slice is the slice where its highest
bit is clear, and the slice less the power of two of its length where it is set; it fails exactly if
the slice fails, and with the same error. -/
theorem signed_readings (w : Word s) :
    (∀ n : Position, ¬ (1 ≤ n.val ∧ n ≤ s.width) →
      w.lowSigned n = .refuse (.outside n s.width)) ∧
    (∀ n : Position, 1 ≤ n.val → n ≤ s.width →
      ∃ x, w.lowSigned n = .ok x ∧ ∀ y, w.ReadsSigned n.val y ↔ y = x) ∧
    (∀ r : BitRange, r.stop ≤ s.width → ∃ u, w.slice r = .ok u ∧
      w.signedSlice r = .ok
        (if u.toNat < 2 ^ (r.stop.val - r.start.val - 1) then (u.toNat : ℤ)
          else u.toNat - 2 ^ (r.stop.val - r.start.val))) ∧
    ∀ (r : BitRange) (failure : Failure RangeError),
      w.signedSlice r = .error failure ↔ w.slice r = .error failure := by
  refine ⟨fun n bad => ?_, fun n positive inWord => ?_, fun r within => ?_, fun r failure => ?_⟩
  · have refused : n.val = 0 ∨ s.width < n := by
      rw [Fin.lt_def]
      rw [Fin.le_def] at bad
      omega
    rw [lowSigned_eq, if_pos refused]
  · refine ⟨_, w.lowSigned_of_accepted positive inWord, fun y => ?_⟩
    constructor
    · intro readsY
      exact readsY.unique positive (w.readsSigned_toInt n.val)
    · rintro rfl
      exact w.readsSigned_toInt n.val
  · refine ⟨w.part r, ?_, ?_⟩
    · rw [slice_eq, if_pos within]
    · rw [signedSlice_eq, if_pos within, w.toInt_extractLsb' within]
      rfl
  · rw [signedSlice_eq, slice_eq]
    by_cases within : r.stop ≤ s.width
    · simp [within]
    · simp [within, Outcome.refuse]

/-- The lowest 16 bits of `0x27bdffe8` read -24 whatever stands above them, no bits read nothing,
and the four bits from 12 on are all set, which is -1. -/
theorem immediate_reads_negative :
    let n : Position := ⟨16, by decide⟩
    let r : BitRange := ⟨⟨12, by decide⟩, ⟨16, by decide⟩, by decide⟩
    lowSigned (s := .b32) 0x27bdffe8#32 n = .ok (-24) ∧
      lowSigned (s := .b32) 0x27bdffe8#32 ⟨0, by decide⟩ =
        .refuse (.outside ⟨0, by decide⟩ WordSize.b32.width) ∧
      signedSlice (s := .b32) 0x27bdffe8#32 r = .ok (-1) := by
  intro n r
  obtain ⟨refused, accepted, sliced, -⟩ := signed_readings (s := .b32) 0x27bdffe8#32
  obtain ⟨x, extended, unique⟩ := accepted n (by decide) (by decide)
  obtain ⟨u, taken, reading⟩ := sliced r (by decide)
  have reads : ReadsSigned (s := .b32) 0x27bdffe8#32 n.val (-24) :=
    ⟨by decide, by decide, by decide⟩
  refine ⟨?_, refused _ (by decide), ?_⟩
  · rw [extended, ← (unique (-24)).1 reads]
  · have number : u = 0xf#32 := Except.ok.inj (taken.symm.trans (by decide))
    rw [reading, number]
    decide

end WordFields.Word
