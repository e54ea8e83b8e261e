import WordFields.Proofs.Layout.Made
import WordFields.Session

/-!
# What a step does to the session

A step that fails leaves the session as it was. One that succeeds only looks, or makes a layout
current that an operation has just made, or saves the current layout, or writes the file; which of
these a step may do is fixed by the step. What every run keeps is then a matter of these few cases.
-/

set_option autoImplicit false

namespace WordFields.Session

/-- The operations that a step's new current layout can come from: one on a width, a text, the text
in the file, or the current layout. -/
inductive Makes (session : Session) : Step → Layout → Prop
  | ofWidth {width : Position} {l : Layout} (made : Layout.ofWidth width = .ok l) :
      Makes session (.ofWidth width) l
  | parseValid {text : String} {l : Layout} (made : (Layout.parseValid text).value = .ok l) :
      Makes session (.parseValid text) l
  | parse {text : String} {l : Layout} (made : Layout.parse text = .ok l) :
      Makes session (.parse text) l
  | load {text : String} {l : Layout} (held : session.file.bind String.fromUTF8? = some text)
      (made : (Layout.parseValid text).value = .ok l) : Makes session .load l
  | insert {l grown : Layout} (isCurrent : session.current = some l) {name : String}
      {start stop : Position} {signed : Bool} {range : BitRange}
      (isRange : BitRange.ofBounds start stop = .ok range)
      (made : l.insert name ⟨range, signed⟩ = .ok grown) :
      Makes session (.onCurrent (.insert name start stop signed)) grown

/-- Everything that a step can do to the session. -/
inductive Effect (session : Session) : Step → Session → Prop
  | none (step : Step) : Effect session step session
  | adopted {step : Step} {l : Layout} (made : session.Makes step l) :
      Effect session step { session with current := some l }
  | saved {l : Layout} (isCurrent : session.current = some l) :
      Effect session (.onCurrent .save) { session with saved := some l }
  | written (bytes : ByteArray) :
      Effect session (.writeFile bytes) { session with file := some bytes }
  | stored {l : Layout} (isCurrent : session.current = some l) :
      Effect session (.onCurrent .store) { session with file := some l.render.toUTF8 }

theorem result_eq_ok_iff {α : Type} {answer : α → Answer × Session}
    {r : Logged (Outcome LayoutError α)} {out : Answer × Session} :
    (result answer r).value = .ok out ↔ ∃ a, r.value = .ok a ∧ answer a = out := by
  obtain ⟨value, log⟩ := r
  rcases value with (_ | _) | _ <;>
    simp [result, Outcome.mapRefusal, Outcome.refuse, Outcome.stop, Except.map]

theorem load_eq_ok {path : String} {file : Option ByteArray} {l : Layout}
    (loaded : (Layout.load path file).value = .ok l) :
    ∃ text, file.bind String.fromUTF8? = some text ∧ (Layout.parseValid text).value = .ok l := by
  unfold Layout.load Logged.after at loaded
  dsimp only at loaded
  split at loaded
  next text held => exact ⟨text, held, loaded⟩
  next => cases loaded

/-- A step on the current layout, if it succeeds. -/
theorem runOn_effect {session after : Session} {l : Layout} (isCurrent : session.current = some l)
    {step : LayoutStep} {answer : Answer}
    (ran : (session.runOn l step).value = .ok (answer, after)) :
    session.Effect (.onCurrent step) after := by
  cases step with
  | insert name start stop signed =>
    obtain ⟨range, isRange, ran⟩ := bind_eq_ok_iff.1 ran
    obtain ⟨grown, inserted, same⟩ := bind_eq_ok_iff.1 ran
    cases same
    have bounds := Outcome.mapRefusal_eq_ok_iff.1 isRange
    exact .adopted (.insert isCurrent bounds (Outcome.mapRefusal_eq_ok_iff.1 inserted))
  | save =>
    cases ran
    exact .saved isCurrent
  | store =>
    cases ran
    exact .stored isCurrent
  | decode | valueOf | reload =>
    obtain ⟨_, _, same⟩ := result_eq_ok_iff.1 ran
    cases same
    exact .none _
  | inspect | get | render | compare =>
    cases ran
    exact .none _

/-- Any step, if it succeeds. -/
theorem run_effect {session after : Session} {step : Step} {answer : Answer}
    (ran : (session.run step).value = .ok (answer, after)) : session.Effect step after := by
  cases step with
  | ofWidth width =>
    obtain ⟨l, made, same⟩ := result_eq_ok_iff.1 ran
    cases same
    exact .adopted (.ofWidth made)
  | parseValid text =>
    obtain ⟨l, made, same⟩ := result_eq_ok_iff.1 ran
    cases same
    exact .adopted (.parseValid made)
  | parse text =>
    unfold run Logged.quiet at ran
    dsimp only at ran
    split at ran
    next made =>
      cases ran
      exact .adopted (.parse made)
    next => cases ran
  | load =>
    obtain ⟨l, loaded, same⟩ := result_eq_ok_iff.1 ran
    obtain ⟨text, held, made⟩ := load_eq_ok loaded
    cases same
    exact .adopted (.load held made)
  | loadDirectory directory =>
    obtain ⟨l, loaded, _⟩ := result_eq_ok_iff.1 ran
    obtain ⟨text, held, _⟩ := load_eq_ok loaded
    cases held
  | storeDirectory directory => cases ran
  | writeFile bytes =>
    cases ran
    exact .written bytes
  | fileText =>
    unfold run Logged.quiet at ran
    dsimp only at ran
    split at ran
    next =>
      cases ran
      exact .none _
    next => cases ran
  | onCurrent step =>
    unfold run at ran
    dsimp only at ran
    split at ran
    next l isCurrent => exact runOn_effect isCurrent ran
    next => cases ran

theorem next_effect (session : Session) (step : Step) :
    session.Effect step (session.next step) := by
  unfold next
  split
  next ran => exact run_effect ran
  next => exact .none step

/-- What every allowed step keeps holds after a run of allowed steps. -/
theorem after_keeps (holds : Session → Prop) {allowed : Step → Prop}
    (keeps : ∀ session step, allowed step → holds session → holds (session.next step))
    {session : Session} (first : holds session) {steps : List Step}
    (all : ∀ step ∈ steps, allowed step) : holds (session.after steps) := by
  induction steps generalizing session with
  | nil => exact first
  | cons step rest ih =>
    have kept := keeps session step (all step List.mem_cons_self) first
    exact ih kept fun later mem => all later (List.mem_cons_of_mem _ mem)

end WordFields.Session
