import Mathlib.Order.Bounds.Basic
import Mathlib.Tactic.Linarith
import Mathlib.Tactic.Ring
import WordFields.Proofs.Word.Slicing

/-!
# Replacing a range in numbers

Around a range a number consists of three parts: what is below it, the number at the range and what
is above it. The hole that a write cuts and what it puts there leave the outer parts alone, so the
word changes by the difference of the numbers at the range, moved up to its start. A checked write
looks at the highest bit set of the value; that is asking whether the value is below the power of
two of the length, also where the word itself cannot hold that power.
-/

set_option autoImplicit false

namespace WordFields

variable {s : WordSize}

/-- What is above the range, the number at the range, and what is below it. -/
theorem BitRange.split_around (r : BitRange) (n : Nat) :
    n = n / 2 ^ r.stop.val * 2 ^ r.stop.val
      + n / 2 ^ r.start.val % 2 ^ r.length.val * 2 ^ r.start.val
      + n % 2 ^ r.start.val := by
  have top : 2 ^ r.stop.val = 2 ^ r.start.val * 2 ^ r.length.val := by
    rw [← pow_add, r.start_add_length]
  have atStart := Nat.div_add_mod n (2 ^ r.start.val)
  have atStop := Nat.div_add_mod (n / 2 ^ r.start.val) (2 ^ r.length.val)
  rw [Nat.div_div_eq_div_mul, ← top] at atStop
  calc
    n = 2 ^ r.start.val * (n / 2 ^ r.start.val) + n % 2 ^ r.start.val := atStart.symm
    _ = 2 ^ r.start.val *
          (2 ^ r.length.val * (n / 2 ^ r.stop.val) + n / 2 ^ r.start.val % 2 ^ r.length.val)
        + n % 2 ^ r.start.val := by rw [atStop]
    _ = n / 2 ^ r.stop.val * 2 ^ r.stop.val
        + n / 2 ^ r.start.val % 2 ^ r.length.val * 2 ^ r.start.val
        + n % 2 ^ r.start.val := by rw [top]; ring

namespace Word

/-- The bits of a replacement at any position, those past the word included. -/
theorem replaced_testBit (w value : Word s) {r : BitRange} (within : r.stop ≤ s.width) (i : Nat) :
    (w.replaced r value).toNat.testBit i =
      if r.start.val ≤ i ∧ i < r.stop.val then value.toNat.testBit (i - r.start.val)
      else w.toNat.testBit i := by
  have bounds : r.stop.val ≤ s.bits := within
  simp only [BitVec.testBit_toNat]
  by_cases inWord : i < s.bits
  · have widest := s.bits_le
    let position : Position := ⟨i, by omega⟩
    have covered := r.contains_iff position
    rw [Fin.le_def, Fin.lt_def] at covered
    have bit := w.replaced_bit r value within (i := position) inWord
    simp only [covered] at bit
    exact bit
  · have past : s.bits ≤ i := Nat.le_of_not_lt inWord
    rw [if_neg (by omega), BitVec.getLsbD_of_ge _ _ past, BitVec.getLsbD_of_ge _ _ past]

theorem replaced_below (w value : Word s) {r : BitRange} (within : r.stop ≤ s.width) :
    (w.replaced r value).toNat % 2 ^ r.start.val = w.toNat % 2 ^ r.start.val := by
  apply Nat.eq_of_testBit_eq
  intro k
  rw [Nat.testBit_mod_two_pow, Nat.testBit_mod_two_pow, replaced_testBit w value within]
  by_cases below : k < r.start.val
  · rw [if_neg (by omega)]
  · simp [below]

theorem replaced_inside (w value : Word s) {r : BitRange} (within : r.stop ≤ s.width) :
    (w.replaced r value).toNat / 2 ^ r.start.val % 2 ^ r.length.val =
      value.toNat % 2 ^ r.length.val := by
  have total := r.start_add_length
  apply Nat.eq_of_testBit_eq
  intro k
  rw [Nat.testBit_mod_two_pow, Nat.testBit_mod_two_pow, Nat.testBit_div_two_pow,
    replaced_testBit w value within]
  by_cases inRange : k < r.length.val
  · rw [if_pos (by omega), Nat.add_sub_cancel]
  · simp [inRange]

theorem replaced_above (w value : Word s) {r : BitRange} (within : r.stop ≤ s.width) :
    (w.replaced r value).toNat / 2 ^ r.stop.val = w.toNat / 2 ^ r.stop.val := by
  apply Nat.eq_of_testBit_eq
  intro k
  rw [Nat.testBit_div_two_pow, Nat.testBit_div_two_pow, replaced_testBit w value within,
    if_neg (by omega)]

/-- A replacement is a sum: the number at the range goes out and that of the value comes in. -/
theorem replaced_toNat (w value : Word s) {r : BitRange} (within : r.stop ≤ s.width) :
    ((w.replaced r value).toNat : ℤ) = w.toNat +
      ((value.toNat % 2 ^ r.length.val : ℕ) - (w.toNat / 2 ^ r.start.val % 2 ^ r.length.val : ℕ)) *
        2 ^ r.start.val := by
  have before := r.split_around w.toNat
  have after := r.split_around (w.replaced r value).toNat
  rw [replaced_above w value within, replaced_inside w value within,
    replaced_below w value within] at after
  zify at before after ⊢
  linarith

/-- The bits that a value needs are the least number of bits that can hold it. -/
theorem bitLength_isLeast (w : Word s) : IsLeast {n | w.toNat < 2 ^ n} w.bitLength := by
  constructor
  · exact (w.bitLength_le_iff w.bitLength).1 (Nat.le_refl _)
  · intro n holds
    exact (w.bitLength_le_iff n).2 holds

/-- A range past the word is refused whatever the value, and demanded it is a fault with the text
of that refusal. Within the word a write adds the difference of the value's lowest bits and the
number that was at the range, moved up to its start, and nothing wraps around. The checked form does
the same exactly if the value is a number of the range's length; else it is told how many bits the
value needs at least. -/
theorem writes_in_numbers (w value : Word s) (r : BitRange) :
    (s.width < r.stop →
      w.put r value = .refuse (.outside r.stop s.width) ∧
      w.overwrite r value = .stop (.refused (RangeError.outside r.stop s.width).message) ∧
      (RangeError.outside r.stop s.width).message =
        s!"bit {r.stop.val} is out of range for a {s.width.val}-bit word") ∧
    (r.stop ≤ s.width → ∃ out, w.overwrite r value = .ok out ∧
      (out.toNat : ℤ) = w.toNat +
        ((value.toNat % 2 ^ (r.stop.val - r.start.val) : ℕ) -
          (w.toNat / 2 ^ r.start.val % 2 ^ (r.stop.val - r.start.val) : ℕ)) * 2 ^ r.start.val ∧
      (value.toNat < 2 ^ (r.stop.val - r.start.val) → w.put r value = .ok out) ∧
      (2 ^ (r.stop.val - r.start.val) ≤ value.toNat →
        ∃ n, IsLeast {m | value.toNat < 2 ^ m} n ∧
          w.put r value = .refuse (.tooWide n r.length))) := by
  constructor
  · intro past
    have outside : ¬ r.stop ≤ s.width := Fin.not_le.2 past
    rw [put_eq, if_neg outside, overwrite_eq, if_neg outside]
    exact ⟨rfl, rfl, rfl⟩
  · intro within
    rw [overwrite_eq, put_eq, if_pos within, if_pos within]
    refine ⟨w.replaced r value, rfl, w.replaced_toNat value within, ?_, ?_⟩
    · intro small
      have short : value.bitLength ≤ r.length.val := (value.bitLength_le_iff _).2 small
      rw [if_neg (Nat.not_lt.2 short)]
    · intro large
      have long : r.length.val < value.bitLength := by
        rw [← Nat.not_le, bitLength_le_iff]
        exact Nat.not_lt.2 large
      rw [if_pos long]
      exact ⟨value.bitLength, value.bitLength_isLeast, rfl⟩

/-- In `0xab` the three bits from 4 on are 2. The demanded form puts the lowest three bits of `0x1d`
there, 5 of them, which adds 48; the checked form takes 5 and refuses `0x1d`, a value of five bits.
A range up to position 9 is refused, with a text that tells that. -/
theorem nibble_replaced :
    let r : BitRange := ⟨⟨4, by decide⟩, ⟨7, by decide⟩, by decide⟩
    let past : BitRange := ⟨⟨4, by decide⟩, ⟨9, by decide⟩, by decide⟩
    (∃ out, overwrite (s := .b8) 0xab#8 r 0x1d#8 = .ok out ∧ out.toNat = 0xab + 48) ∧
    (∃ out, put (s := .b8) 0xab#8 r 0x05#8 = .ok out) ∧
    (∃ n, put (s := .b8) 0xab#8 r 0x1d#8 = .refuse (.tooWide n r.length)) ∧
    put (s := .b8) 0xab#8 past 0x1d#8 = .refuse (.outside ⟨9, by decide⟩ WordSize.b8.width) ∧
    overwrite (s := .b8) 0xab#8 past 0x1d#8 =
      .stop (.refused "bit 9 is out of range for a 8-bit word") := by
  intro r past
  have within : r.stop ≤ WordSize.b8.width := by decide
  obtain ⟨out, written, number, -, refused⟩ :=
    (writes_in_numbers (s := .b8) 0xab#8 0x1d#8 r).2 within
  obtain ⟨taken, -, -, accepted, -⟩ := (writes_in_numbers (s := .b8) 0xab#8 0x05#8 r).2 within
  obtain ⟨notTaken, stopped, wording⟩ :=
    (writes_in_numbers (s := .b8) 0xab#8 0x1d#8 past).1 (by decide)
  have text : (RangeError.outside past.stop WordSize.b8.width).message =
      "bit 9 is out of range for a 8-bit word" := wording.trans (by decide)
  rw [text] at stopped
  refine ⟨⟨out, written, ?_⟩, ⟨taken, accepted (by decide)⟩, ?_, notTaken, stopped⟩
  · have sum : (out.toNat : ℤ) = (0xab + 48 : ℕ) := number.trans (by decide)
    exact Int.natCast_inj.1 sum
  · obtain ⟨n, -, tooWide⟩ := refused (by decide)
    exact ⟨n, tooWide⟩

end Word

end WordFields
