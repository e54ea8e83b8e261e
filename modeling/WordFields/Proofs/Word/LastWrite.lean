import WordFields.Proofs.Word.Slicing
import WordFields.Word.Run

/-!
# Runs of word operations: the last write decides

A write succeeds or fails by its positions and its value alone, never by the word it finds. After
any run each bit is the one that the last successful write covering its position put there, and a
bit that no successful write covers is still the initial one.
-/

set_option autoImplicit false

namespace WordFields

namespace WordStep

variable {s : WordSize}

/-- The step ends with a value, not with a refusal or a fault. -/
def succeeds (w : Word s) (step : WordStep s) : Bool :=
  match step.run w with
  | .ok _ => true
  | .error _ => false

/-- A write is admitted if its positions are in order and within the word, and if a checked one is
given a value that its range can hold. -/
def admitted : WordStep s → Bool
  | .putBit _ index _ => index < s.width
  | .put start stop value =>
    start < stop && stop ≤ s.width && value.toNat < 2 ^ (stop.val - start.val)
  | .overwrite start stop _ => start < stop && stop ≤ s.width
  | _ => true

/-- The bit that a write puts at `i`, if `i` is one of its target positions. -/
def placed (i : Position) : WordStep s → Option Bool
  | .putBit _ index bit => if index = i then some bit else none
  | .put start stop value =>
    if start ≤ i ∧ i < stop then some (value.getLsbD (i.val - start.val)) else none
  | .overwrite start stop value =>
    if start ≤ i ∧ i < stop then some (value.getLsbD (i.val - start.val)) else none
  | _ => none

/-- The steps of a run that succeed, each in the word that it finds. -/
def succeeded (w : Word s) : List (WordStep s) → List (WordStep s)
  | [] => []
  | step :: rest =>
    if step.succeeds w then step :: succeeded (step.next w) rest
    else succeeded (step.next w) rest

theorem replaced_placed (w : Word s) (r : BitRange) (value : Word s) (within : r.stop ≤ s.width)
    {i : Position} (small : i < s.width) :
    (w.replaced r value).getLsbD i.val =
      (if r.start ≤ i ∧ i < r.stop then some (value.getLsbD (i.val - r.start.val))
        else none).getD (w.getLsbD i.val) := by
  rw [Word.replaced_bit w r value within small]
  by_cases covered : r.contains i = true
  · rw [if_pos covered, if_pos ((r.contains_iff i).1 covered), Option.getD_some]
  · rw [if_neg covered, if_neg (fun inside => covered ((r.contains_iff i).2 inside)),
      Option.getD_none]

/-- An admitted write succeeds, changes the bits at its target positions and keeps all others. -/
theorem run_of_admitted (w : Word s) (step : WordStep s) (isWrite : step.writes = true)
    (admits : step.admitted = true) :
    ∃ out, step.run w = .ok (.word out) ∧
      ∀ i, i < s.width → out.getLsbD i.val = (step.placed i).getD (w.getLsbD i.val) := by
  cases step with
  | putBit form index bit =>
    have small : index < s.width := by simpa [admitted] using admits
    refine ⟨w.withBit index bit, ?_, fun i inWord => ?_⟩
    · cases form <;> simp [run, Form.of, Word.putBit_eq, small]
    · rw [Word.withBit_bit w index bit inWord, placed]
      split <;> rfl
  | put start stop value =>
    simp only [admitted, Bool.and_eq_true, decide_eq_true_eq] at admits
    obtain ⟨⟨ordered, within⟩, fits⟩ := admits
    have short : ¬ (BitRange.mk start stop ordered).length.val < value.bitLength := by
      rw [Nat.not_lt, Word.bitLength_le_iff]
      exact fits
    refine ⟨w.replaced ⟨start, stop, ordered⟩ value, ?_, fun i inWord => ?_⟩
    · simp [run, BitRange.ofBounds_of_lt ordered, Word.put_eq, within, short]
    · exact replaced_placed w ⟨start, stop, ordered⟩ value within inWord
  | overwrite start stop value =>
    simp only [admitted, Bool.and_eq_true, decide_eq_true_eq] at admits
    obtain ⟨ordered, within⟩ := admits
    refine ⟨w.replaced ⟨start, stop, ordered⟩ value, ?_, fun i inWord => ?_⟩
    · simp [run, BitRange.ofBounds_of_lt ordered, Word.overwrite_eq, within]
    · exact replaced_placed w ⟨start, stop, ordered⟩ value within inWord
  | _ => cases isWrite

/-- A write that is not admitted fails, in every form and in every word. -/
theorem run_of_not_admitted (w : Word s) (step : WordStep s) (isWrite : step.writes = true)
    (refuses : step.admitted = false) : ∃ failure, step.run w = .error failure := by
  cases step with
  | putBit form index bit =>
    have large : ¬ index < s.width := by simpa [admitted] using refuses
    cases form with
    | checked =>
      refine ⟨.refusal (.outside index s.width), ?_⟩
      simp only [run, Form.of, Word.putBit_eq, if_neg large, Outcome.map_refuse]
      rfl
    | demanding =>
      refine ⟨.fault (.refused (RangeError.message (.outside index s.width))), ?_⟩
      simp only [run, Form.of, Word.putBit_eq, if_neg large, Outcome.demand_refuse,
        Outcome.map_stop]
      rfl
  | put start stop value =>
    by_cases ordered : start < stop
    · simp only [run, BitRange.ofBounds_of_lt ordered, ok_bind, Word.put_eq]
      by_cases within : stop ≤ s.width
      · have wide : (BitRange.mk start stop ordered).length.val < value.bitLength := by
          have unfit : ¬ value.toNat < 2 ^ (stop.val - start.val) := by
            simpa [admitted, ordered, within] using refuses
          rw [← Nat.not_le, Word.bitLength_le_iff]
          exact unfit
        rw [if_pos within, if_pos wide]
        exact ⟨_, rfl⟩
      · rw [if_neg within]
        exact ⟨_, rfl⟩
    · simp only [run, BitRange.ofBounds_of_not_lt ordered]
      exact ⟨_, rfl⟩
  | overwrite start stop value =>
    by_cases ordered : start < stop
    · have past : ¬ stop ≤ s.width := by simpa [admitted, ordered] using refuses
      simp only [run, BitRange.ofBounds_of_lt ordered, ok_bind, Word.overwrite_eq,
        if_neg past]
      exact ⟨_, rfl⟩
    · simp only [run, BitRange.ofBounds_of_not_lt ordered]
      exact ⟨_, rfl⟩
  | _ => cases isWrite

theorem succeeds_of_write (w : Word s) (step : WordStep s) (isWrite : step.writes = true) :
    step.succeeds w = step.admitted := by
  cases admits : step.admitted with
  | true =>
    obtain ⟨out, result, -⟩ := run_of_admitted w step isWrite admits
    simp only [succeeds, result]
  | false =>
    obtain ⟨failure, result⟩ := run_of_not_admitted w step isWrite admits
    simp only [succeeds, result]

theorem placed_of_not_writes (step : WordStep s) (reads : step.writes = false) (i : Position) :
    step.placed i = none := by
  cases step <;> first | rfl | cases reads

/-- One step puts at each position what a successful write has for it, and keeps the bit else. -/
theorem next_bit (w : Word s) (step : WordStep s) {i : Position} (small : i < s.width) :
    (step.next w).getLsbD i.val =
      if step.succeeds w then (step.placed i).getD (w.getLsbD i.val) else w.getLsbD i.val := by
  cases isWrite : step.writes with
  | false =>
    rw [placed_of_not_writes step isWrite, Option.getD_none, ite_self]
    simp only [next, isWrite]
  | true =>
    rw [succeeds_of_write w step isWrite]
    cases admits : step.admitted with
    | true =>
      obtain ⟨out, result, bits⟩ := run_of_admitted w step isWrite admits
      rw [if_pos rfl, ← bits i small]
      simp only [next, isWrite, result]
    | false =>
      obtain ⟨failure, result⟩ := run_of_not_admitted w step isWrite admits
      simp [next, isWrite, result]

/-- The bits that the successful writes of a run put at one position, in turn; the last one stays.
-/
theorem final_bit (w : Word s) (steps : List (WordStep s)) {i : Position} (small : i < s.width) :
    (final w steps).getLsbD i.val =
      ((succeeded w steps).filterMap (placed i)).getLast?.getD (w.getLsbD i.val) := by
  induction steps generalizing w with
  | nil => rfl
  | cons step rest ih =>
    have later : final w (step :: rest) = final (step.next w) rest := rfl
    rw [later, ih (step.next w), next_bit w step small, succeeded]
    cases succeeded : step.succeeds w with
    | false => rfl
    | true =>
      cases bit : step.placed i with
      | none => simp [bit]
      | some value => simp [bit, List.getLast?_cons]

/-- Each write of a run succeeds by its positions and value alone, and after the run every bit is
the last one that a successful write put there, or the initial one if none did. -/
theorem last_write_wins (w : Word s) (steps : List (WordStep s)) (i : Position)
    (small : i < s.width) :
    (∀ step ∈ steps, step.writes = true → ∀ found, step.succeeds found = step.admitted) ∧
      (final w steps).getLsbD i.val =
        ((succeeded w steps).filterMap (placed i)).getLast?.getD (w.getLsbD i.val) :=
  ⟨fun step _ isWrite found => succeeds_of_write found step isWrite, final_bit w steps small⟩

/-- A wide value, a reversed range and an index past the word are in vain; a later narrow write
decides bit 3 over an earlier one of the whole word. -/
theorem last_write_over_failures :
    let steps : List (WordStep .b8) :=
      [.overwrite ⟨0, by decide⟩ ⟨8, by decide⟩ 0xf7, .put ⟨2, by decide⟩ ⟨5, by decide⟩ 0x0f,
        .overwrite ⟨6, by decide⟩ ⟨4, by decide⟩ 0, .overwrite ⟨2, by decide⟩ ⟨4, by decide⟩ 0xfe,
        .putBit .demanding ⟨200, by decide⟩ true]
    (⟨3, by decide⟩ : Position) < WordSize.b8.width ∧
      ((succeeded 0 steps).filterMap (placed ⟨3, by decide⟩)).length = 2 ∧
      (final 0 steps).getLsbD 3 = true := by
  intro steps
  have small : (⟨3, by decide⟩ : Position) < WordSize.b8.width := by decide
  refine ⟨small, by decide, ?_⟩
  rw [(last_write_wins 0 steps ⟨3, by decide⟩ small).2]
  decide

end WordStep

end WordFields
