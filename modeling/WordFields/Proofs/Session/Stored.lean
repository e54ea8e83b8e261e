import WordFields.Proofs.Layout.RoundTrip
import WordFields.Proofs.Session.Effects

/-!
# What was stored is what is loaded

A stored layout replaces whatever the file held, and only a later store or write touches the file
again. Every current layout of a session can be spelled in a text, even one that was parsed without
validation, so its text comes back from the file as that layout, valid or not. A load that finds no
valid layout changes nothing.
-/

set_option autoImplicit false

namespace WordFields

namespace Layout

/-- Why no layout can be loaded from a file with these bytes: there is no file or its bytes are no
text, or the text spells no layout, or the layout that it spells is refused. -/
inductive Unloadable (file : Option ByteArray) : LayoutError → Prop
  | noText (nothing : file.bind String.fromUTF8? = none) : Unloadable file .file
  | unreadable {text : String} (held : file.bind String.fromUTF8? = some text) {error : ReadError}
      (read : parse text = .error error) : Unloadable file (.unreadable error)
  | refused {text : String} (held : file.bind String.fromUTF8? = some text) {l : Layout}
      (read : parse text = .ok l) {error : LayoutError} (refused : l.check = .refuse error) :
      Unloadable file error

theorem fromUTF8?_toUTF8 (text : String) : String.fromUTF8? text.toUTF8 = some text := by
  rw [String.fromUTF8?, String.toUTF8_eq_toByteArray, dif_pos text.isValidUTF8]
  rfl

theorem load_value (path : String) (file : Option ByteArray) :
    (load path file).value =
      match file.bind String.fromUTF8? with
      | some text => (parseValid text).value
      | none => .refuse .file := by
  unfold load Logged.after
  cases file.bind String.fromUTF8? <;> rfl

/-- Loading fails for the reasons that make a file unloadable, and for no other. -/
theorem load_eq_error_iff {path : String} {file : Option ByteArray}
    {failure : Failure LayoutError} :
    (load path file).value = .error failure ↔
      ∃ error, failure = .refusal error ∧ Unloadable file error := by
  rw [load_value]
  constructor
  · intro failed
    split at failed
    next text held =>
      unfold parseValid at failed
      split at failed
      next l read =>
        rw [accept_value] at failed
        cases checked : l.check with
        | ok =>
          rw [checked] at failed
          cases failed
        | error found =>
          rw [checked] at failed
          cases failed
          obtain ⟨error, rfl⟩ := check_refuses checked
          exact ⟨error, rfl, .refused held read checked⟩
      next error read =>
        cases failed
        exact ⟨_, rfl, .unreadable held read⟩
    next nothing =>
      cases failed
      exact ⟨_, rfl, .noText nothing⟩
  · rintro ⟨error, rfl, unloadable⟩
    cases unloadable with
    | noText nothing =>
      rw [nothing]
      rfl
    | unreadable held read =>
      rw [held]
      simp only [parseValid, read]
      rfl
    | refused held read refused =>
      rw [held]
      simp only [parseValid, read, accept_value, refused]
      rfl

/-- The text of a layout in a file is loaded as that layout, if it is accepted. -/
theorem load_render {l : Layout} (spellable : l.Spellable) (path : String) :
    (load path (some l.render.toUTF8)).value = l.check.map fun _ => l := by
  rw [load_value, Option.bind_some, fromUTF8?_toUTF8]
  dsimp only
  rw [parseValid_render spellable, accept_value]

end Layout

namespace Session

/-- The step writes the file. -/
def Step.writesFile : Step → Bool
  | .writeFile _ => true
  | .onCurrent .store => true
  | _ => false

theorem Effect.file_eq {session after : Session} {step : Step} (effect : session.Effect step after)
    (untouched : step.writesFile = false) : after.file = session.file := by
  cases effect with
  | none | adopted | saved => rfl
  | written | stored => cases untouched

/-- The file keeps its bytes through steps that do not write it. -/
theorem after_file {session : Session} {steps : List Step}
    (untouched : ∀ step ∈ steps, step.writesFile = false) :
    (session.after steps).file = session.file := by
  refine after_keeps (·.file = session.file) (fun before step isUntouched same => ?_) rfl untouched
  rw [(next_effect before step).file_eq isUntouched]
  exact same

/-- The current layout, if there is one, has been made by an operation. -/
def CurrentMade (session : Session) : Prop := ∀ l, session.current = some l → l.Made

theorem Makes.made {session : Session} {step : Step} {l : Layout} (made : session.Makes step l)
    (before : session.CurrentMade) : l.Made := by
  cases made with
  | ofWidth made => exact .ofWidth made
  | parseValid made => exact .parseValid made
  | parse made => exact .parse made
  | load held made => exact .parseValid made
  | insert isCurrent _ made => exact .insert (before _ isCurrent) made

theorem Effect.currentMade {session after : Session} {step : Step}
    (effect : session.Effect step after) (before : session.CurrentMade) : after.CurrentMade := by
  cases effect with
  | adopted made =>
    intro l isCurrent
    cases isCurrent
    exact made.made before
  | none | saved | written | stored => exact before

/-- Whatever steps a session takes, some operation has made its current layout. -/
theorem after_currentMade (path : String) (steps : List Step) :
    ((start path).after steps).CurrentMade := by
  have first : (start path).CurrentMade := fun l isCurrent => nomatch isCurrent
  refine after_keeps CurrentMade (fun session step _ before => ?_) first fun _ _ => trivial
  exact (next_effect session step).currentMade before

theorem run_store_value {session : Session} {l : Layout} (isCurrent : session.current = some l) :
    (session.run (.onCurrent .store)).value =
      .ok (.done, { session with file := some l.render.toUTF8 }) := by
  obtain ⟨path, current, saved, file⟩ := session
  cases isCurrent
  rfl

theorem run_load_value (session : Session) :
    (session.run .load).value =
      ((Layout.load session.path session.file).value.mapRefusal .layout).map session.adopt := rfl

theorem run_load_eq_error_iff {session : Session} {failure : Failure SessionError} :
    (session.run .load).value = .error failure ↔
      ∃ error, failure = .refusal (.layout error) ∧ Layout.Unloadable session.file error := by
  rw [run_load_value]
  constructor
  · intro failed
    cases loaded : (Layout.load session.path session.file).value with
    | ok l =>
      rw [loaded] at failed
      cases failed
    | error found =>
      obtain ⟨error, rfl, unloadable⟩ := Layout.load_eq_error_iff.1 loaded
      rw [loaded] at failed
      cases failed
      exact ⟨error, rfl, unloadable⟩
  · rintro ⟨error, rfl, unloadable⟩
    rw [Layout.load_eq_error_iff.2 ⟨error, rfl, unloadable⟩]
    rfl

theorem next_of_failed {session : Session} {step : Step} {failure : Failure SessionError}
    (failed : (session.run step).value = .error failure) : session.next step = session := by
  rw [next, failed]

/-- A layout that is stored stays in the file until it is written again, whatever happens to the
session in between, and loading it gives it back if it is valid and the error of its validation if
it is not. A load fails for what the file holds and for nothing else, and then it changes
nothing. -/
theorem stored_is_loaded (path : String) (earlier later : List Step) {l : Layout}
    (isCurrent : ((start path).after earlier).current = some l)
    (untouched : ∀ step ∈ later, step.writesFile = false) :
    let before := (start path).after earlier
    let stored := before.next (.onCurrent .store)
    let session := stored.after later
    (before.run (.onCurrent .store)).value = .ok (.done, stored) ∧
      session.file = some l.render.toUTF8 ∧
      (l.Valid →
        (session.run .load).value = .ok (.layout l, { session with current := some l })) ∧
      (¬ l.Valid → ∃ error, l.validate.value = .refuse error ∧
        (session.run .load).value = .refuse (.layout error)) ∧
      ∀ (other : Session) (failure : Failure SessionError),
        ((other.run .load).value = .error failure ↔
          ∃ error, failure = .refusal (.layout error) ∧ Layout.Unloadable other.file error) ∧
        ((other.run .load).value = .error failure → other.next .load = other) := by
  intro before stored session
  have ran := run_store_value isCurrent
  have isStored : stored = { before with file := some l.render.toUTF8 } := by
    simp only [stored, next, before, ran]
  have kept : session.file = some l.render.toUTF8 := by
    rw [after_file untouched, isStored]
  have loaded : (Layout.load session.path session.file).value = l.check.map fun _ => l := by
    rw [kept]
    exact Layout.load_render (after_currentMade path earlier l isCurrent).spellable session.path
  refine ⟨?_, kept, ?_, ?_, fun other failure => ⟨run_load_eq_error_iff, next_of_failed⟩⟩
  · rw [isStored]
    exact ran
  · intro valid
    rw [run_load_value, loaded, Layout.check_eq_ok_iff.2 valid]
    rfl
  · intro invalid
    obtain ⟨error, refused⟩ := Layout.check_of_not_valid invalid
    refine ⟨error, ?_, ?_⟩
    · rw [Layout.validate_value, refused]
    · rw [run_load_value, loaded, refused]
      rfl

/-- Over a file that is no text, a layout of 12 bits with an odd name is stored. It is still there
after steps that fail and steps that make another layout current; it is then refused for its width,
as it was parsed without validation. -/
theorem odd_layout_stays_stored :
    let odd : Layout :=
      ⟨⟨12, by decide⟩,
        ⟨[("a.b]\n\"é", ⟨⟨⟨4, by decide⟩, ⟨9, by decide⟩, by decide⟩, true⟩)], by decide⟩⟩
    let earlier : List Step := [.writeFile ⟨#[0xff]⟩, .load, .parse odd.render]
    let later : List Step :=
      [.load, .ofWidth ⟨8, by decide⟩, .onCurrent (.insert "" ⟨0, by decide⟩ ⟨4, by decide⟩ false),
        .storeDirectory, .loadDirectory]
    let session := (((start "layout.toml").after earlier).next (.onCurrent .store)).after later
    session.file = some odd.render.toUTF8 ∧
      (session.run .load).value = .refuse (.layout (.unsupportedWidth ⟨12, by decide⟩)) := by
  intro odd earlier later session
  have spellable : odd.Spellable := ⟨by decide, by decide⟩
  have isCurrent : ((start "layout.toml").after earlier).current = some odd := by
    simp only [after, earlier, List.foldl_cons, List.foldl_nil, next, run,
      Layout.parse_render spellable]
    rfl
  have unsupported : ¬ odd.Valid := fun valid => absurd valid.supported (by decide)
  have verdict : odd.validate.value = .refuse (.unsupportedWidth ⟨12, by decide⟩) := rfl
  obtain ⟨-, kept, -, invalid, -⟩ :=
    stored_is_loaded "layout.toml" earlier later isCurrent (by decide)
  obtain ⟨error, refused, loaded⟩ := invalid unsupported
  cases verdict.symm.trans refused
  exact ⟨kept, loaded⟩

end Session

end WordFields
