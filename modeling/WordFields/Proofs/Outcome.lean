import WordFields.Failure

/-!
# Outcomes in sequence

A sequence of operations ends with the first refusal or fault, and succeeds only if each of them
does. The same goes for a fold, where what every step keeps holds at the end.
-/

set_option autoImplicit false

namespace WordFields

variable {ε α β : Type}

@[simp] theorem ok_bind (a : α) (next : α → Except ε β) :
    ((.ok a : Except ε α) >>= next) = next a := rfl

@[simp] theorem error_bind (error : ε) (next : α → Except ε β) :
    ((.error error : Except ε α) >>= next) = .error error := rfl

namespace Outcome

@[simp] theorem refuse_bind (error : ε) (next : α → Outcome ε β) :
    ((refuse error : Outcome ε α) >>= next) = refuse error := rfl

@[simp] theorem stop_bind (fault : Fault) (next : α → Outcome ε β) :
    ((stop fault : Outcome ε α) >>= next) = stop fault := rfl

@[simp] theorem map_ok (f : α → β) (a : α) : (f <$> (.ok a : Outcome ε α)) = .ok (f a) := rfl

@[simp] theorem map_refuse (f : α → β) (error : ε) :
    (f <$> (refuse error : Outcome ε α)) = refuse error := rfl

@[simp] theorem map_stop (f : α → β) (fault : Fault) :
    (f <$> (stop fault : Outcome ε α)) = stop fault := rfl

@[simp] theorem demand_ok (text : ε → String) (a : α) : demand text (.ok a) = .ok a := rfl

@[simp] theorem demand_refuse (text : ε → String) (error : ε) :
    (refuse error : Outcome ε α).demand text = stop (.refused (text error)) := rfl

/-- Restating refusals changes no success. -/
theorem mapRefusal_eq_ok_iff {δ : Type} {f : ε → δ} {r : Outcome ε α} {a : α} :
    r.mapRefusal f = .ok a ↔ r = .ok a := by
  rcases r with (_ | _) | _ <;> simp [mapRefusal, refuse, stop]

/-- The operation decides on its input: what is good gets a value, all else is refused, and nothing
ends in a fault. -/
structure Decides (r : Outcome ε α) (good : Prop) : Prop where
  accepts : good → ∃ a, r = .ok a
  refuses : ¬ good → ∃ error, r = refuse error
  faultless : ∀ fault, r ≠ stop fault

theorem Decides.of_cases {r : Outcome ε α} {good : Prop} (accepts : good → ∃ a, r = .ok a)
    (refuses : ¬ good → ∃ error, r = refuse error) : r.Decides good where
  accepts := accepts
  refuses := refuses
  faultless := by
    intro fault stopped
    by_cases isGood : good
    · obtain ⟨a, same⟩ := accepts isGood
      rw [same] at stopped
      cases stopped
    · obtain ⟨error, same⟩ := refuses isGood
      rw [same] at stopped
      cases stopped

theorem decides_ite (good : Prop) [Decidable good] (a : α) (error : ε) :
    (if good then .ok a else refuse error : Outcome ε α).Decides good :=
  .of_cases (fun isGood => ⟨a, if_pos isGood⟩) (fun notGood => ⟨error, if_neg notGood⟩)

end Outcome

/-- A sequence succeeds with what its second step makes of the first. -/
theorem bind_eq_ok_iff {first : Except ε α} {next : α → Except ε β} {b : β} :
    (first >>= next) = .ok b ↔ ∃ a, first = .ok a ∧ next a = .ok b := by
  cases first with
  | error failure =>
    constructor
    · intro success
      cases success
    · rintro ⟨a, succeeded, -⟩
      cases succeeded
  | ok a =>
    constructor
    · exact fun succeeded => ⟨a, rfl, succeeded⟩
    · rintro ⟨_, same, succeeded⟩
      cases same
      exact succeeded

/-- What every step of a fold keeps holds at its end, if it succeeds. -/
theorem foldlM_keeps {step : β → α → Except ε β} {holds : β → Prop} {items : List α}
    (keeps : ∀ state, ∀ item ∈ items, ∀ next, holds state → step state item = .ok next → holds next)
    {start final : β} (first : holds start) (ran : items.foldlM step start = .ok final) :
    holds final := by
  induction items generalizing start with
  | nil =>
    cases ran
    exact first
  | cons item rest ih =>
    rw [List.foldlM_cons] at ran
    obtain ⟨middle, stepped, ran⟩ := bind_eq_ok_iff.1 ran
    exact ih (fun state later mem => keeps state later (List.mem_cons_of_mem _ mem))
      (keeps start item List.mem_cons_self middle first stepped) ran

end WordFields
