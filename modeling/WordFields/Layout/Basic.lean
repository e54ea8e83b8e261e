import WordFields.Field
import WordFields.LogRecord
import WordFields.NameMap
import WordFields.ReadError

/-!
# Layouts

A layout splits a word of a fixed width into named fields, which may overlap. A layout built by
`ofWidth` and `insert`, or accepted by `validate`, has a supported width and no field past it. One
parsed from a text without validation may have any width and any fields; decoding refuses what does
not fit. Everything that walks the fields goes in name order.
-/

set_option autoImplicit false

namespace WordFields

inductive LayoutError where
  | unsupportedWidth (width : Position)
  /-- A word of another width than the layout's. -/
  | wordWidth (layout word : Position)
  | inField (name : String) (error : RangeError)
  | unreadable (error : ReadError)
  /-- The layout file cannot be read or written. -/
  | file
  deriving DecidableEq, Repr

/-- The text of an error, where it is this library's to word. The reader of texts adds to
`unreadable` at which key, or on which line and column, it stopped; that is left out here. -/
def LayoutError.message : LayoutError → Option String
  | .unsupportedWidth width =>
    some s!"unsupported word width {width.val}, must be 8, 16, 32, 64 or 128"
  | .wordWidth layout word =>
    some s!"layout is {layout.val} bits wide, but the word is {word.val} bits"
  | .inField name error => some s!"field '{name}': {error.message}"
  | .unreadable error => error.message.map fun text => s!"failed to deserialize layout: {text}"
  | .file => none

structure Layout where
  width : Position
  fields : NameMap Field
  deriving DecidableEq, Repr

namespace Layout

/-- The word widths a layout can describe. -/
def supportedWidths : List Position :=
  [WordSize.b8, .b16, .b32, .b64, .b128].map WordSize.width

def checkWidth (width : Position) : Outcome LayoutError Unit :=
  if width ∈ supportedWidths then .ok () else .refuse (.unsupportedWidth width)

/-- The layout without fields. -/
def ofWidth (width : Position) : Outcome LayoutError Layout := do
  checkWidth width
  pure ⟨width, .empty⟩

def checkField (width : Position) (name : String) (field : Field) : Outcome LayoutError Unit :=
  if field.range.stop ≤ width then .ok ()
  else .refuse (.inField name (.outside field.range.stop width))

/-- Adds the field `name`, or replaces it. -/
def insert (l : Layout) (name : String) (field : Field) : Outcome LayoutError Layout := do
  checkField l.width name field
  pure { l with fields := l.fields.insert name field }

def get? (l : Layout) (name : String) : Option Field := l.fields.get? name

/-- The width first, then each field in name order. -/
def check (l : Layout) : Outcome LayoutError Unit := do
  checkWidth l.width
  l.fields.entries.forM fun e => checkField l.width e.1 e.2

def overlapWarning (a b : String × Field) : LogRecord :=
  ⟨.warn, s!"fields '{a.1}' ({a.2.range.text}) and '{b.1}' ({b.2.range.text}) overlap"⟩

/-- One warning for each pair of fields with a position in common. -/
def overlapWarnings : List (String × Field) → List LogRecord
  | [] => []
  | first :: rest =>
    (rest.filter fun later => first.2.range.meets later.2.range).map (overlapWarning first)
      ++ overlapWarnings rest

/-- Refuses a layout that no word can have; overlaps are only logged. -/
def validate (l : Layout) : Logged (Outcome LayoutError Unit) :=
  match l.check with
  | .ok () => ⟨.ok (), overlapWarnings l.fields.entries⟩
  | .error failure => .quiet (.error failure)

def sizeRecord (l : Layout) : LogRecord :=
  ⟨.debug, s!"parsed {l.width.val}-bit layout with {l.fields.size} fields"⟩

/-- The layout if it is valid, with a record of its size. -/
def accept (l : Layout) : Logged (Outcome LayoutError Layout) :=
  match l.validate with
  | ⟨.ok (), warnings⟩ => ⟨.ok l, warnings ++ [l.sizeRecord]⟩
  | ⟨.error failure, log⟩ => ⟨.error failure, log⟩

def checkWord (l : Layout) (s : WordSize) : Outcome LayoutError Unit :=
  if s.width = l.width then .ok () else .refuse (.wordWidth l.width s.width)

/-- The value of one field, a refusal naming the field. -/
def fieldValue {s : WordSize} (w : Word s) (name : String) (field : Field) :
    Outcome LayoutError Value :=
  (field.value w).mapRefusal (.inField name)

def fieldRecord (name : String) (range : BitRange) (value : Value) : LogRecord :=
  ⟨.trace, s!"{name} [{range.text}] = {value.text}"⟩

/-- The entries up to the first field that fails, each traced. -/
def decodeFields {s : WordSize} (w : Word s) :
    List (String × Field) → Logged (Outcome LayoutError (List Entry))
  | [] => .quiet (.ok [])
  | (name, field) :: rest =>
    match fieldValue w name field with
    | .error failure => .quiet (.error failure)
    | .ok value =>
      let others := decodeFields w rest
      ⟨others.value.map (⟨name, field.range, value⟩ :: ·),
        fieldRecord name field.range value :: others.log⟩

/-- The word split into its fields. -/
def decode {s : WordSize} (l : Layout) (w : Word s) : Logged (Outcome LayoutError (List Entry)) :=
  match l.checkWord s with
  | .ok () => decodeFields w l.fields.entries
  | .error failure => .quiet (.error failure)

/-- One field of the word, if the layout has it. -/
def valueOf {s : WordSize} (l : Layout) (w : Word s) (name : String) :
    Outcome LayoutError (Option Value) := do
  l.checkWord s
  match l.get? name with
  | none => pure none
  | some field => some <$> fieldValue w name field

end Layout

end WordFields
