import WordFields.Proofs.Layout.Decoding

/-!
# Overlaps are what stands between two writes

Two writes into a word can be exchanged if their ranges have no position in common: then neither
changes a bit that the other one sets, and neither is seen by a slice of the other's range. Where
there is a common position the later write decides it, so set bits and clear ones in either order
give two different words.
-/

set_option autoImplicit false

namespace WordFields

variable {s : WordSize}

theorem BitRange.meets_comm (r q : BitRange) : r.meets q = q.meets r := Bool.and_comm _ _

/-- Ranges that do not meet share no position. -/
theorem BitRange.not_contains_of_apart {r q : BitRange} (apart : r.meets q = false) {i : Position}
    (inR : r.contains i = true) : q.contains i = false := by
  rw [← Bool.not_eq_true]
  intro inQ
  have meet := (r.meets_iff q).2 ⟨i, inR, inQ⟩
  rw [apart] at meet
  cases meet

namespace Word

/-- The word after a write at `r` and then one at `q`. -/
def overwriteBoth (w : Word s) (r : BitRange) (x : Word s) (q : BitRange) (y : Word s) :
    Outcome RangeError (Word s) := do
  let first ← w.overwrite r x
  first.overwrite q y

theorem overwriteBoth_within (w x y : Word s) {r q : BitRange} (inR : r.stop ≤ s.width)
    (inQ : q.stop ≤ s.width) :
    w.overwriteBoth r x q y = .ok ((w.replaced r x).replaced q y) := by
  rw [overwriteBoth, overwrite_within w x inR, ok_bind, overwrite_within _ y inQ]

/-- A slice takes nothing but the bits of its range. -/
theorem part_congr {v w : Word s} {r : BitRange}
    (agree : ∀ i : Position, r.contains i = true → v.getLsbD i.val = w.getLsbD i.val) :
    v.part r = w.part r := by
  rw [part, part, extract_congr v w r agree]

/-- A write is not seen in a range apart from its own. -/
theorem part_replaced_apart (w y : Word s) {r q : BitRange} (apart : r.meets q = false)
    (inR : r.stop ≤ s.width) (inQ : q.stop ≤ s.width) :
    (w.replaced q y).part r = w.part r := by
  refine part_congr fun i covered => ?_
  have inWord := BitRange.lt_width_of_contains inR covered
  rw [replaced_bit w q y inQ inWord, BitRange.not_contains_of_apart apart covered]
  exact if_neg Bool.false_ne_true

theorem replaced_comm (w x y : Word s) {r q : BitRange} (apart : r.meets q = false)
    (inR : r.stop ≤ s.width) (inQ : q.stop ≤ s.width) :
    (w.replaced r x).replaced q y = (w.replaced q y).replaced r x := by
  refine eq_of_positions fun i inWord => ?_
  rw [replaced_bit _ q y inQ inWord, replaced_bit w r x inR inWord, replaced_bit _ r x inR inWord,
    replaced_bit w q y inQ inWord]
  cases covered : r.contains i with
  | false => simp
  | true => simp [BitRange.not_contains_of_apart apart covered]

/-- At a common position the later write is seen, so clear bits over set ones are not the same as
set bits over clear ones. -/
theorem replaced_order_matters (w : Word s) {r q : BitRange} (meet : r.meets q = true)
    (inR : r.stop ≤ s.width) (inQ : q.stop ≤ s.width) :
    (w.replaced r (ones s)).replaced q 0 ≠ (w.replaced q 0).replaced r (ones s) := by
  obtain ⟨i, coveredR, coveredQ⟩ := (r.meets_iff q).1 meet
  have inWord := BitRange.lt_width_of_contains inR coveredR
  have small : i.val - r.start.val < s.bits := Nat.lt_of_le_of_lt (Nat.sub_le _ _) inWord
  intro same
  have clear : ((w.replaced r (ones s)).replaced q 0).getLsbD i.val = false := by
    rw [replaced_bit _ q 0 inQ inWord, if_pos coveredQ]
    exact BitVec.getLsbD_zero
  have set : ((w.replaced q 0).replaced r (ones s)).getLsbD i.val = true := by
    rw [replaced_bit _ r (ones s) inR inWord, if_pos coveredR, ones, BitVec.getLsbD_allOnes,
      decide_eq_true small]
  rw [same, set] at clear
  cases clear

/-- Whether two ranges meet does not depend on their order, and they do if and only if some position
is in both. Within a word both writes always succeed, and their order is irrelevant for every word
and all values if and only if the ranges do not meet; then a write at one of them also leaves every
slice of the other as it was. -/
theorem writes_commute_iff_apart :
    (∀ r q : BitRange, r.meets q = q.meets r ∧
      (r.meets q = true ↔ ∃ i, r.contains i = true ∧ q.contains i = true)) ∧
    ∀ (s : WordSize) (r q : BitRange), r.stop ≤ s.width → q.stop ≤ s.width →
      (∀ v x y : Word s, ∃ out, v.overwriteBoth r x q y = .ok out) ∧
      (r.meets q = false ↔
        ∀ v x y : Word s, v.overwriteBoth r x q y = v.overwriteBoth q y r x) ∧
      (r.meets q = false → ∀ v y : Word s, ∃ out u,
        v.overwrite q y = .ok out ∧ v.slice r = .ok u ∧ out.slice r = .ok u) := by
  refine ⟨fun r q => ⟨r.meets_comm q, r.meets_iff q⟩, fun s r q inR inQ => ⟨?_, ?_, ?_⟩⟩
  · intro v x y
    exact ⟨_, overwriteBoth_within v x y inR inQ⟩
  · constructor
    · intro apart v x y
      rw [overwriteBoth_within v x y inR inQ, overwriteBoth_within v y x inQ inR,
        replaced_comm v x y apart inR inQ]
    · intro commute
      rw [← Bool.not_eq_true]
      intro meet
      have same := commute 0 (ones s) 0
      rw [overwriteBoth_within _ _ _ inR inQ, overwriteBoth_within _ _ _ inQ inR] at same
      exact replaced_order_matters 0 meet inR inQ (Except.ok.inj same)
  · intro apart v y
    refine ⟨v.replaced q y, v.part r, overwrite_within v y inQ, slice_within v inR, ?_⟩
    rw [slice_within _ inR, part_replaced_apart v y apart inR inQ]

/-- The two halves of a byte are neighbours and can be written in either order. Five bits and the
upper half share bit 4: there some words and values tell the orders apart. -/
theorem halves_in_either_order :
    let low : BitRange := ⟨⟨0, by decide⟩, ⟨4, by decide⟩, by decide⟩
    let high : BitRange := ⟨⟨4, by decide⟩, ⟨8, by decide⟩, by decide⟩
    let five : BitRange := ⟨⟨0, by decide⟩, ⟨5, by decide⟩, by decide⟩
    (∀ v x y : Word .b8, v.overwriteBoth low x high y = v.overwriteBoth high y low x) ∧
      (¬ ∀ v x y : Word .b8, v.overwriteBoth five x high y = v.overwriteBoth high y five x) ∧
      ∃ out u, overwrite (s := .b8) 0xab#8 high 0x05#8 = .ok out ∧ out.slice low = .ok u := by
  intro low high five
  obtain ⟨-, apart, unseen⟩ := writes_commute_iff_apart.2 .b8 low high (by decide) (by decide)
  obtain ⟨-, meeting, -⟩ := writes_commute_iff_apart.2 .b8 five high (by decide) (by decide)
  refine ⟨apart.1 (by decide), fun commute => ?_, ?_⟩
  · have meet : five.meets high = true := by decide
    rw [meeting.2 commute] at meet
    cases meet
  · obtain ⟨out, u, written, -, taken⟩ := unseen (by decide) 0xab#8 0x05#8
    exact ⟨out, u, written, taken⟩

end Word

end WordFields
