import WordFields.Layout.Reading
import WordFields.Layout.Writing

/-!
# Sessions

A session works on one current layout, keeps one saved layout beside it, and has one file. Each step
answers a result and the records it logged; a step that fails leaves everything as it was. The file
holds any bytes: they are a text only if they are valid UTF-8.
-/

set_option autoImplicit false

namespace WordFields

namespace Layout

/-- The layout in the file at `path` with these bytes. Without a file, or if it holds no text, it
cannot be read. -/
def load (path : String) (file : Option ByteArray) : Logged (Outcome LayoutError Layout) :=
  .after [⟨.debug, s!"loading layout from {path}"⟩] <|
    match file.bind String.fromUTF8? with
    | some text => parseValid text
    | none => .quiet (.refuse .file)

/-- Logged before anything is written, and so also where nothing can be. -/
def storeRecord (path : String) : LogRecord := ⟨.debug, s!"storing layout to {path}"⟩

/-- The bytes of the file at `path` after the layout is stored there, whatever it held. -/
def store (l : Layout) (path : String) : Logged ByteArray :=
  ⟨l.render.toUTF8, [storeRecord path]⟩

end Layout

inductive SessionError where
  /-- There is no current layout. -/
  | noLayout
  | range (error : RangeError)
  | read (error : ReadError)
  | layout (error : LayoutError)
  deriving DecidableEq, Repr

def SessionError.message : SessionError → Option String
  | .noLayout => none
  | .range error => some error.message
  | .read error => error.message
  | .layout error => error.message

structure Session where
  /-- Where the file is. -/
  path : String
  current : Option Layout
  saved : Option Layout
  file : Option ByteArray

namespace Session

/-- The session at its start: no layout, and no file at `path`. -/
def start (path : String) : Session := ⟨path, none, none, none⟩

/-- What a step shows when it succeeds. -/
inductive Answer where
  | done
  | flag (flag : Bool)
  | text (text : String)
  | layout (layout : Layout)
  | field (field : Option Field)
  | entries (entries : List Entry)
  | value (value : Option Value)
  deriving DecidableEq, Repr

/-- A step on the current layout. -/
inductive LayoutStep where
  | insert (name : String) (start stop : Position) (signed : Bool)
  | inspect
  | get (name : String)
  | decode (s : WordSize) (w : Word s)
  | valueOf (s : WordSize) (w : Word s) (name : String)
  | render
  /-- Whether the layout is read back from its own text. -/
  | reload
  | save
  /-- Whether the saved layout is the current one. -/
  | compare
  | store

inductive Step where
  | ofWidth (width : Position)
  | parseValid (text : String)
  /-- Parses a layout without validating it. -/
  | parse (text : String)
  | load
  /-- Loads from the path of a directory, which holds no text. -/
  | loadDirectory (directory : String := ".")
  /-- Stores at the path of a directory, which takes none. -/
  | storeDirectory (directory : String := ".")
  | writeFile (bytes : ByteArray)
  | fileText
  | onCurrent (step : LayoutStep)

/-- What a step answers, with the session after it. -/
abbrev Result := Logged (Outcome SessionError (Answer × Session))

/-- A layout that becomes the current one. -/
def adopt (session : Session) (layout : Layout) : Answer × Session :=
  (.layout layout, { session with current := some layout })

/-- A step that only looks. -/
def look (session : Session) (answer : Answer) : Answer × Session := (answer, session)

/-- A result of a layout operation as one of the session. -/
def result {α : Type} (answer : α → Answer × Session) (r : Logged (Outcome LayoutError α)) :
    Result :=
  ⟨(r.value.mapRefusal .layout).map answer, r.log⟩

def runOn (session : Session) (layout : Layout) : LayoutStep → Result
  | .insert name start stop signed =>
    .quiet do
      let range ← (BitRange.ofBounds start stop).mapRefusal .range
      let grown ← (layout.insert name ⟨range, signed⟩).mapRefusal .layout
      pure (session.adopt grown)
  | .inspect => .quiet (pure (session.look (.layout layout)))
  | .get name => .quiet (pure (session.look (.field (layout.get? name))))
  | .decode _ w => result (fun entries => session.look (.entries entries)) (layout.decode w)
  | .valueOf _ w name =>
    result (fun value => session.look (.value value)) (.quiet (layout.valueOf w name))
  | .render => .quiet (pure (session.look (.text layout.render)))
  | .reload =>
    result (fun read => session.look (.flag (read = layout))) (Layout.parseValid layout.render)
  | .save => .quiet (pure (.done, { session with saved := some layout }))
  | .compare => .quiet (pure (session.look (.flag (session.saved = some layout))))
  | .store =>
    let stored := layout.store session.path
    ⟨pure (.done, { session with file := some stored.value }), stored.log⟩

def run (session : Session) : Step → Result
  | .ofWidth width => result session.adopt (.quiet (Layout.ofWidth width))
  | .parseValid text => result session.adopt (Layout.parseValid text)
  | .parse text =>
    .quiet (match Layout.parse text with
      | .ok layout => pure (session.adopt layout)
      | .error e => .refuse (.read e))
  | .load => result session.adopt (Layout.load session.path session.file)
  | .loadDirectory directory => result session.adopt (Layout.load directory none)
  | .storeDirectory directory => ⟨.refuse (.layout .file), [Layout.storeRecord directory]⟩
  | .writeFile bytes => .quiet (pure (.done, { session with file := some bytes }))
  | .fileText =>
    .quiet (match session.file.bind String.fromUTF8? with
      | some text => pure (session.look (.text text))
      | none => .refuse (.layout .file))
  | .onCurrent step =>
    match session.current with
    | some layout => session.runOn layout step
    | none => .quiet (.refuse .noLayout)

/-- The session after a step. -/
def next (session : Session) (step : Step) : Session :=
  match (session.run step).value with
  | .ok (_, after) => after
  | .error _ => session

/-- What each step answers and logs, in turn. -/
def runAll (session : Session) : List Step → List (Logged (Outcome SessionError Answer))
  | [] => []
  | step :: rest =>
    let r := session.run step
    ⟨r.value.map Prod.fst, r.log⟩ :: runAll (session.next step) rest

/-- The session after all steps. -/
def after (session : Session) (steps : List Step) : Session := steps.foldl next session

end Session

end WordFields
