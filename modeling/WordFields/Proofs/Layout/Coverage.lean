import WordFields.Proofs.Layout.Restoring

/-!
# Decoding tells exactly the covered bits

Two words of the layout's width are compared. Where a field has no position nothing of the word
reaches an entry, by the mask, the shift or the sign extension; where a field has one, the entry
carries that bit, the top bit of a signed field among them.
-/

set_option autoImplicit false

namespace WordFields.Layout

variable {s : WordSize} {l : Layout}

/-- An entry is made of the bits of its range, and it carries each of them. -/
theorem entryIn_eq_iff {e : String × Field} (within : e.2.range.stop ≤ s.width) (v w : Word s) :
    entryIn v e = entryIn w e ↔
      ∀ i : Position, e.2.range.contains i = true → v.getLsbD i.val = w.getLsbD i.val := by
  constructor
  · intro same i inRange
    have fromV := (entryIn_carries v e within).bits i inRange
    have fromW := (entryIn_carries w e within).bits i inRange
    rw [← fromV, ← fromW, same]
  · intro agree
    have raw := extract_congr v w e.2.range agree
    rw [entryIn, entryIn, Field.valueIn, Field.valueIn, raw]

theorem covers_iff {i : Position} :
    l.covers i = true ↔ ∃ e ∈ l.fields.entries, e.2.range.contains i = true := by
  rw [covers, List.any_eq_true]

/-- Two words decode into the same entries if and only if they agree on every bit that a field
covers. -/
theorem decode_eq_iff_covered (valid : l.Valid) (same : s.width = l.width) (v w : Word s) :
    ∃ fromV fromW, (l.decode v).value = .ok fromV ∧ (l.decode w).value = .ok fromW ∧
      (fromV = fromW ↔ ∀ i : Position, l.covers i = true → v.getLsbD i.val = w.getLsbD i.val) := by
  refine ⟨l.fields.entries.map (entryIn v), l.fields.entries.map (entryIn w), ?_, ?_, ?_⟩
  · rw [decode_of_valid valid same v]
  · rw [decode_of_valid valid same w]
  have within : ∀ e ∈ l.fields.entries, e.2.range.stop ≤ s.width := by
    rw [same]
    exact valid.within
  rw [List.map_inj_left]
  constructor
  · intro entries i covered
    obtain ⟨e, mem, inRange⟩ := covers_iff.1 covered
    exact (entryIn_eq_iff (within e mem) v w).1 (entries e mem) i inRange
  · intro agree e mem
    refine (entryIn_eq_iff (within e mem) v w).2 fun i inRange => ?_
    exact agree i (covers_iff.2 ⟨e, mem, inRange⟩)

/-- Of an 8-bit word with a signed field from 4 on and one from 3 to 6, the lowest bits do not show
in the entries, and the sign of the first field does. -/
theorem sign_shows_low_bits_do_not :
    let upper : Layout :=
      ⟨⟨8, by decide⟩,
        ⟨[("high", ⟨⟨⟨4, by decide⟩, ⟨8, by decide⟩, by decide⟩, true⟩),
          ("mid", ⟨⟨⟨3, by decide⟩, ⟨6, by decide⟩, by decide⟩, false⟩)], by decide⟩⟩
    (upper.decode (s := .b8) 0xa8#8).value = (upper.decode (s := .b8) 0xaf#8).value ∧
      (upper.decode (s := .b8) 0xa8#8).value ≠ (upper.decode (s := .b8) 0x28#8).value := by
  intro upper
  have valid : upper.Valid := ⟨by decide, by decide⟩
  constructor
  · obtain ⟨_, _, first, second, told⟩ :=
      decode_eq_iff_covered (s := .b8) valid rfl 0xa8#8 0xaf#8
    rw [first, second, told.2]
    intro i covered
    obtain ⟨e, mem, inRange⟩ := covers_iff.1 covered
    have bounds : ∀ e ∈ upper.fields.entries, 3 ≤ e.2.range.start.val ∧ e.2.range.stop.val ≤ 8 := by
      decide
    have inside := (BitRange.contains_iff _ _).1 inRange
    have low : 3 ≤ i.val := Nat.le_trans (bounds e mem).1 inside.1
    have high : i.val < 8 := Nat.lt_of_lt_of_le inside.2 (bounds e mem).2
    have agree : ∀ k, k < 8 → 3 ≤ k → (0xa8#8).getLsbD k = (0xaf#8).getLsbD k := by decide
    exact agree i.val high low
  · obtain ⟨_, _, first, second, told⟩ :=
      decode_eq_iff_covered (s := .b8) valid rfl 0xa8#8 0x28#8
    rw [first, second]
    intro entries
    have agree := told.1 (Except.ok.inj entries) ⟨7, by decide⟩ rfl
    revert agree
    decide

end WordFields.Layout
