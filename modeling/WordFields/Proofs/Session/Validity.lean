import WordFields.Proofs.Layout.RoundTrip
import WordFields.Proofs.Session.Effects

/-!
# Sessions keep their layouts valid

A step makes a layout current only if it comes from a constructor that checks: a supported width, a
field that was checked against it, or a text that was validated. The saved layout is a current one
from before. Only parsing without validation lets other layouts in; without such a step the current
and the saved layout are valid at any time, whatever texts, files and positions the steps bring and
whichever of them fail.
-/

set_option autoImplicit false

namespace WordFields

namespace Session

/-- The step parses a layout without validating it. -/
def Step.skipsValidation : Step → Bool
  | .parse _ => true
  | _ => false

/-- Both layouts of the session are valid, where it has them. -/
structure Valid (session : Session) : Prop where
  current : ∀ l, session.current = some l → l.Valid
  saved : ∀ l, session.saved = some l → l.Valid

/-- What a step does to a session that had only valid layouts: nothing, or it makes a valid layout
current, saves the current one, or writes the file. -/
inductive Change (session : Session) : Session → Prop
  | none : Change session session
  | adopted {l : Layout} (valid : l.Valid) : Change session { session with current := some l }
  | saved : Change session { session with saved := session.current }
  | written (bytes : ByteArray) : Change session { session with file := some bytes }

theorem Change.valid {session after : Session} (change : session.Change after)
    (before : session.Valid) : after.Valid := by
  cases change with
  | none => exact before
  | adopted valid =>
    refine ⟨fun l isCurrent => ?_, before.saved⟩
    cases isCurrent
    exact valid
  | saved => exact ⟨before.current, before.current⟩
  | written bytes => exact ⟨before.current, before.saved⟩

/-- Every operation but parsing without validation makes a valid layout, from a valid one if it
starts from the current layout. -/
theorem Makes.valid {session : Session} {step : Step} {l : Layout} (made : session.Makes step l)
    (before : session.Valid) (checked : step.skipsValidation = false) : l.Valid := by
  cases made with
  | ofWidth made => exact Layout.valid_of_ofWidth made
  | parseValid made => exact (Layout.parseValid_eq_ok_iff.1 made).2
  | parse made => cases checked
  | load held made => exact (Layout.parseValid_eq_ok_iff.1 made).2
  | insert isCurrent _ made => exact (before.current _ isCurrent).insert made

theorem Effect.change {session after : Session} {step : Step} (effect : session.Effect step after)
    (before : session.Valid) (checked : step.skipsValidation = false) : session.Change after := by
  cases effect with
  | none => exact .none
  | adopted made => exact .adopted (made.valid before checked)
  | saved isCurrent =>
    rw [← isCurrent]
    exact .saved
  | written bytes => exact .written bytes
  | stored => exact .written _

theorem after_valid {session : Session} (before : session.Valid) {steps : List Step}
    (checked : ∀ step ∈ steps, step.skipsValidation = false) : (session.after steps).Valid := by
  refine after_keeps Valid (fun session step isChecked valid => ?_) before checked
  exact ((next_effect session step).change valid isChecked).valid valid

/-- Whatever steps a session without layouts takes, only parsing without validation left out, its
current and its saved layout have a supported width and proper fields within it. So they decode
every word of their width, all of it and field by field, and come back from their own text. -/
theorem run_keeps_layouts_valid {session : Session} (noCurrent : session.current = none)
    (noSaved : session.saved = none) {steps : List Step}
    (checked : ∀ step ∈ steps, step.skipsValidation = false) {l : Layout}
    (held : (session.after steps).current = some l ∨ (session.after steps).saved = some l) :
    l.width.val ∈ [8, 16, 32, 64, 128] ∧
      (∀ e ∈ l.fields.entries,
        e.2.range.start < e.2.range.stop ∧ e.2.range.stop ≤ l.width) ∧
      (∀ (s : WordSize) (w : Word s), s.width = l.width →
        (l.decode w).value = .ok (l.fields.entries.map (Layout.entryIn w)) ∧
        ∀ name, l.valueOf w name = .ok ((l.get? name).map fun field => field.valueIn w)) ∧
      (Layout.parseValid l.render).value = .ok l := by
  have start : session.Valid := by
    constructor
    · intro k isCurrent
      rw [noCurrent] at isCurrent
      cases isCurrent
    · intro k isSaved
      rw [noSaved] at isSaved
      cases isSaved
  have final := after_valid start checked
  have valid : l.Valid := by
    rcases held with isCurrent | isSaved
    · exact final.current l isCurrent
    · exact final.saved l isSaved
  refine ⟨Layout.val_of_supported valid.supported, ?_, ?_, ?_⟩
  · exact fun e mem => ⟨e.2.range.start_lt_stop, valid.within e mem⟩
  · intro s w same
    refine ⟨?_, fun name => Layout.valueOf_of_valid valid same w name⟩
    rw [Layout.decode_of_valid valid same w]
  · rw [Layout.parseValid_render valid.spellable]
    exact Layout.accept_eq_ok_iff.2 ⟨rfl, valid⟩

/-- Among failing steps, a layout that is built, saved and overtaken by another one. -/
theorem saved_layout_decodes :
    let steps : List Step :=
      [.load, .ofWidth ⟨9, by decide⟩, .ofWidth ⟨8, by decide⟩, .parseValid "?",
        .onCurrent (.insert "a" ⟨2, by decide⟩ ⟨8, by decide⟩ true),
        .onCurrent (.insert "b" ⟨2, by decide⟩ ⟨9, by decide⟩ true), .onCurrent .save,
        .ofWidth ⟨16, by decide⟩]
    ∃ l, ((start "layout.toml").after steps).saved = some l ∧
      (l.decode (s := .b8) 0x8c#8).value =
        .ok [⟨"a", ⟨⟨2, by decide⟩, ⟨8, by decide⟩, by decide⟩, .signed (-29)⟩] := by
  intro steps
  have checked : ∀ step ∈ steps, step.skipsValidation = false := by decide
  have noCurrent : (start "layout.toml").current = none := rfl
  have kept := run_keeps_layouts_valid noCurrent rfl checked (.inr rfl)
  exact ⟨_, rfl, (kept.2.2.1 .b8 0x8c#8 rfl).1⟩

end Session

end WordFields
