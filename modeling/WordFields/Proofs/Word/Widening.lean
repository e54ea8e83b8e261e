import WordFields.Proofs.Layout.Decoding
import WordFields.Word.Run

/-!
# Word operations mean the same at every size

A word can be widened to 128 bits before or after an operation. Masks, holes and sign bits depend on
the size, but what they let through does not: slices, bits and signed readings are the same, what is
written is the same below the old width, and above it the widened word stays clear. Only the bits of
a field's range decide its value, so any two words that have these bits give the same one.
-/

set_option autoImplicit false

namespace WordFields

variable {s : WordSize}

/-- A form takes every value that the checked operation gives. -/
theorem Form.of_eq_ok_iff (form : Form) {α : Type} {checked : Outcome RangeError α} {a : α} :
    form.of checked = .ok a ↔ checked = .ok a := by
  cases form with
  | checked => exact Iff.rfl
  | demanding => exact Outcome.demand_eq_ok_iff RangeError.message checked a

namespace Word

theorem width_le_widest (s : WordSize) : s.width ≤ WordSize.b128.width := s.bits_le

theorem part_zeroExtend (w : Word s) {r : BitRange} (within : r.stop ≤ s.width) :
    w.zeroExtend.part r = (w.part r).zeroExtend := by
  refine BitVec.eq_of_getLsbD_eq fun i _ => ?_
  rw [part_bit _ (within_widest within), zeroExtend_bit, zeroExtend_bit, part_bit _ within]

/-- Words of 128 bits are equal to a widened word if their bits are its bits below the old width and
clear above it. -/
theorem eq_zeroExtend {wide : Word .b128} {w : Word s}
    (below : ∀ i : Position, i < s.width → wide.getLsbD i.val = w.getLsbD i.val)
    (above : ∀ i : Position, s.width ≤ i → i < WordSize.b128.width → wide.getLsbD i.val = false) :
    wide = w.zeroExtend := by
  refine BitVec.eq_of_getLsbD_eq fun k small => ?_
  let i : Position := ⟨k, Nat.lt_trans small (by decide)⟩
  rw [zeroExtend_bit]
  by_cases inWord : i < s.width
  · exact below i inWord
  · have past : s.width ≤ i := Fin.not_lt.1 inWord
    rw [above i past small, BitVec.getLsbD_of_ge w k past]

/-- Above a word its widening is clear. -/
theorem zeroExtend_bit_above (w : Word s) {i : Position} (past : s.width ≤ i) :
    w.zeroExtend.getLsbD i.val = false := by
  rw [zeroExtend_bit, BitVec.getLsbD_of_ge w i.val past]

theorem replaced_zeroExtend (w value : Word s) {r : BitRange} (within : r.stop ≤ s.width) :
    w.zeroExtend.replaced r value.zeroExtend = (w.replaced r value).zeroExtend := by
  have wide := within_widest within
  refine eq_zeroExtend (fun i inWord => ?_) (fun i past small => ?_)
  · have small := Fin.lt_of_lt_of_le inWord (width_le_widest s)
    rw [replaced_bit _ r _ wide small, replaced_bit w r value within inWord, zeroExtend_bit,
      zeroExtend_bit]
  · have outside : ¬ r.contains i = true := fun inRange =>
      Fin.not_lt.2 (Fin.le_trans within past) ((r.contains_iff i).1 inRange).2
    rw [replaced_bit _ r _ wide small, if_neg outside, zeroExtend_bit_above w past]

theorem withBit_zeroExtend (w : Word s) {index : Position} (inWord : index < s.width)
    (bit : Bool) : w.zeroExtend.withBit index bit = (w.withBit index bit).zeroExtend := by
  refine eq_zeroExtend (fun i inside => ?_) (fun i past small => ?_)
  · have small := Fin.lt_of_lt_of_le inside (width_le_widest s)
    rw [withBit_bit _ index bit small, withBit_bit w index bit inside, zeroExtend_bit]
  · have other : index ≠ i := Fin.ne_of_lt (Fin.lt_of_lt_of_le inWord past)
    rw [withBit_bit _ index bit small, if_neg other, zeroExtend_bit_above w past]

theorem bitLength_zeroExtend (w : Word s) : w.zeroExtend.bitLength = w.bitLength := by
  have same : w.zeroExtend.toNat = w.toNat := BitVec.toNat_setWidth_of_le s.bits_le
  rw [bitLength, bitLength, same]

/-- The lowest bits of a word are those of its widening. -/
theorem setWidth_zeroExtend (w : Word s) {n : Nat} (inWord : n ≤ s.bits) :
    BitVec.setWidth n w.zeroExtend = BitVec.setWidth n w :=
  BitVec.setWidth_setWidth_of_le w (Nat.le_trans inWord s.bits_le)

end Word

/-- The value of a field is decided by the bits of its range, whatever the sizes of the words. -/
theorem Field.valueIn_congr {t : WordSize} (f : Field) (v : Word s) (w : Word t)
    (agree : ∀ i : Position, f.range.contains i = true → v.getLsbD i.val = w.getLsbD i.val) :
    f.valueIn v = f.valueIn w := by
  unfold Field.valueIn
  rw [extract_congr v w f.range agree]

/-- Each operation within a word, in either form, gives the same when it is done on the widened word
instead: the same bits and numbers, and of a word that it makes the widening. A checked write is
refused in both for the same reason. Hence the value of a field is the same for any two words of any
two sizes that agree on its range. -/
theorem Word.widening_commutes (v x : Word s) (form : Form) :
    (∀ r : BitRange, r.stop ≤ s.width →
      (∃ u, form.of (v.slice r) = .ok u ∧ form.of (v.zeroExtend.slice r) = .ok u.zeroExtend) ∧
      (∃ u, v.overwrite r x = .ok u ∧ v.zeroExtend.overwrite r x.zeroExtend = .ok u.zeroExtend) ∧
      ((∃ u, v.put r x = .ok u ∧ v.zeroExtend.put r x.zeroExtend = .ok u.zeroExtend) ∨
        ∃ bits length, v.put r x = .refuse (.tooWide bits length) ∧
          v.zeroExtend.put r x.zeroExtend = .refuse (.tooWide bits length)) ∧
      ∃ k, form.of (v.signedSlice r) = .ok k ∧ form.of (v.zeroExtend.signedSlice r) = .ok k) ∧
    (∀ i : Position, i < s.width →
      (∃ b, form.of (v.getBit i) = .ok b ∧ form.of (v.zeroExtend.getBit i) = .ok b) ∧
      ∀ bit, ∃ u, form.of (v.putBit i bit) = .ok u ∧
        form.of (v.zeroExtend.putBit i bit) = .ok u.zeroExtend) ∧
    (∀ n : Position, 0 < n.val → n ≤ s.width →
      ∃ k, form.of (v.lowSigned n) = .ok k ∧ form.of (v.zeroExtend.lowSigned n) = .ok k) ∧
    v.zeroExtend.bitLength = v.bitLength ∧
    ∀ (t : WordSize) (w : Word t) (f : Field), f.range.stop ≤ s.width → f.range.stop ≤ t.width →
      (∀ i : Position, f.range.contains i = true → v.getLsbD i.val = w.getLsbD i.val) →
      ∃ value, f.value v = .ok value ∧ f.value w = .ok value := by
  simp only [Form.of_eq_ok_iff]
  refine ⟨fun r within => ?_, fun i inWord => ?_, fun n positive inWord => ?_,
    bitLength_zeroExtend v, fun t w f inV inW agree => ?_⟩
  · have wide := within_widest within
    have sameBits := extract_congr v.zeroExtend v r fun i _ => zeroExtend_bit v i.val
    let raw := BitVec.extractLsb' r.start.val r.length.val v
    refine ⟨⟨v.part r, ?_, ?_⟩, ⟨v.replaced r x, ?_, ?_⟩, ?_, ⟨raw.toInt, ?_, ?_⟩⟩
    · rw [slice_eq, if_pos within]
    · rw [slice_eq, if_pos wide, part_zeroExtend v within]
    · rw [overwrite_eq, if_pos within]
    · rw [overwrite_eq, if_pos wide, replaced_zeroExtend v x within]
    · rw [put_eq, put_eq, if_pos within, if_pos wide, bitLength_zeroExtend,
        replaced_zeroExtend v x within]
      by_cases tooWide : r.length.val < x.bitLength
      · rw [if_pos tooWide, if_pos tooWide]
        exact .inr ⟨x.bitLength, r.length, rfl, rfl⟩
      · rw [if_neg tooWide, if_neg tooWide]
        exact .inl ⟨v.replaced r x, rfl, rfl⟩
    · rw [signedSlice_eq, if_pos within]
    · rw [signedSlice_eq, if_pos wide, sameBits]
  · have small := Fin.lt_of_lt_of_le inWord (width_le_widest s)
    refine ⟨⟨v.getLsbD i.val, ?_, ?_⟩, fun bit => ⟨v.withBit i bit, ?_, ?_⟩⟩
    · rw [getBit_eq, if_pos inWord]
    · rw [getBit_eq, if_pos small, zeroExtend_bit]
    · rw [putBit_eq, if_pos inWord]
    · rw [putBit_eq, if_pos small, withBit_zeroExtend v inWord]
  · have small := Fin.le_trans inWord (width_le_widest s)
    refine ⟨_, lowSigned_of_accepted v positive inWord, ?_⟩
    rw [lowSigned_of_accepted _ positive small, setWidth_zeroExtend v inWord]
  · refine ⟨f.valueIn v, ?_, ?_⟩
    · rw [Field.value_eq, if_pos inV]
    · rw [Field.value_eq, if_pos inW, Field.valueIn_congr f v w agree]

/-- The whole byte `0xab` is -85 in 8 bits and in 128, and its bits from 3 on are the signed field
that a word of 32 bits with other bits around it has there. -/
theorem Word.byte_reads_alike :
    let whole : BitRange := .whole .b8
    let upper : Field := ⟨⟨⟨3, by decide⟩, ⟨8, by decide⟩, by decide⟩, true⟩
    whole.stop ≤ WordSize.b8.width ∧
      (∃ k, signedSlice (s := .b8) 0xab#8 whole = .ok k ∧
        (zeroExtend (s := .b8) 0xab#8).signedSlice whole = .ok k) ∧
      ∃ value, upper.value (s := .b8) 0xab#8 = .ok value ∧
        upper.value (s := .b32) 0x7fffffac#32 = .ok value := by
  intro whole upper
  have alike := widening_commutes (s := .b8) 0xab#8 0x00#8 .checked
  have within : whole.stop ≤ WordSize.b8.width := Fin.le_refl _
  refine ⟨within, (alike.1 whole within).2.2.2, ?_⟩
  refine alike.2.2.2.2 .b32 0x7fffffac#32 upper (by decide) (by decide) fun i inRange => ?_
  have agree : ∀ k, k < 8 → 3 ≤ k → (0xab#8).getLsbD k = (0x7fffffac#32).getLsbD k := by decide
  obtain ⟨low, high⟩ := (upper.range.contains_iff i).1 inRange
  exact agree i.val high low

end WordFields
