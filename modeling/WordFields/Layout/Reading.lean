import WordFields.Layout.Basic
import WordFields.Toml.Section

/-!
# Ranges, fields and layouts from a text

A table is read entry by entry, in order. The first entry at fault decides the error: a known key
given twice, a value of the wrong kind, or a table opened twice inside a value. Unknown keys are
ignored, but their values are walked through. What is missing is found at the end, and only then are
start and end compared.
-/

set_option autoImplicit false

namespace WordFields

open Toml

/-- The result of reading a value. -/
abbrev Reading (α : Type) := Except ReadError α

namespace Toml

/-- Walks through a value that nobody needs. -/
def Node.ignore (node : Node) : Reading Unit :=
  if node.intact then .ok () else .error .repeatedTable

def Node.position (node : Node) : Reading Position :=
  match node with
  | .integer n =>
    if h : 0 ≤ n ∧ n < 0x10000000000000000 then .ok ⟨n.toNat, by omega⟩ else .error (.notPosition n)
  | other => .error (.mismatch other.shape .position)

def Node.flag : Node → Reading Bool
  | .boolean b => .ok b
  | other => .error (.mismatch other.shape .flag)

/-- Reads the entries of a table in order; a table that breaks off is at fault behind them. -/
def Table.read {σ : Type} (t : Table) (start : σ) (entry : σ → String → Node → Reading σ) :
    Reading σ := do
  let final ← t.entries.foldlM (fun state e => entry state e.1 e.2) start
  if t.kind = .repeated then .error .repeatedTable else .ok final

end Toml

/-- The value of a key read for the first time; a second time is at fault whatever the value. -/
def Reading.once {α : Type} (key : String) (before : Option α) (value : Reading α) :
    Reading (Option α) :=
  match before with
  | none => some <$> value
  | some _ => .error (.duplicate key)

/-- The value of a key that has to be there. -/
def Reading.require {α : Type} (key : String) : Option α → Reading α
  | some value => .ok value
  | none => .error (.missing key)

/-- The range, its refusal restated. -/
def BitRange.readBounds (start stop : Position) : Reading BitRange :=
  if h : start < stop then .ok ⟨start, stop, h⟩ else .error (.range (.reversed start stop))

/-- What is known of a range while its table is read. -/
structure RangeDraft where
  start : Option Position
  stop : Option Position
  deriving DecidableEq, Repr

namespace RangeDraft

def empty : RangeDraft := ⟨none, none⟩

def read (d : RangeDraft) (key : String) (node : Node) : Reading RangeDraft :=
  match key with
  | "start" => do
    let start ← Reading.once key d.start node.position
    .ok { d with start }
  | "end" => do
    let stop ← Reading.once key d.stop node.position
    .ok { d with stop }
  | _ => do
    node.ignore
    .ok d

def finish (d : RangeDraft) : Reading BitRange := do
  let start ← Reading.require "start" d.start
  let stop ← Reading.require "end" d.stop
  BitRange.readBounds start stop

end RangeDraft

/-- What is known of a field while its table is read. -/
structure FieldDraft where
  range : RangeDraft
  signed : Option Bool
  deriving DecidableEq, Repr

namespace FieldDraft

def empty : FieldDraft := ⟨.empty, none⟩

def read (d : FieldDraft) (key : String) (node : Node) : Reading FieldDraft :=
  match key with
  | "signed" => do
    let signed ← Reading.once key d.signed node.flag
    .ok { d with signed }
  | _ => do
    let range ← d.range.read key node
    .ok { d with range }

/-- A field is unsigned unless the table says otherwise. -/
def finish (d : FieldDraft) : Reading Field := do
  let range ← d.range.finish
  .ok ⟨range, d.signed.getD false⟩

end FieldDraft

namespace Field

def ofTable (t : Table) : Reading Field := do
  let draft ← t.read .empty FieldDraft.read
  draft.finish

/-- A field written as an array: start, end and perhaps the sign rule. Too many items are found
before start and end are compared. -/
def ofItems (items : List Node) : Reading Field :=
  match items with
  | [] => .error (.tooShort 0)
  | [start] => do
    let _ ← start.position
    .error (.tooShort 1)
  | start :: stop :: rest => do
    let start ← start.position
    let stop ← stop.position
    let signed ←
      match rest with
      | [] => .ok false
      | signed :: _ => signed.flag
    if 3 < items.length then .error (.tooLong items.length)
    else
      let range ← BitRange.readBounds start stop
      .ok ⟨range, signed⟩

def ofNode : Node → Reading Field
  | .table kind entries => ofTable ⟨kind, entries⟩
  | .date spelling => ofTable ⟨.closed, [(Node.dateKey, .text spelling)]⟩
  | .array items => ofItems items
  | other => .error (.mismatch other.shape .field)

end Field

namespace Layout

/-- The fields of a table. Of several fields of one name the last is kept, but each has to read. -/
def fieldsOfTable (t : Table) : Reading (NameMap Field) :=
  t.read .empty fun fields name node => do
    let field ← Field.ofNode node
    .ok (fields.insert name field)

def fieldsOfNode : Node → Reading (NameMap Field)
  | .table kind entries => fieldsOfTable ⟨kind, entries⟩
  | .date spelling => fieldsOfTable ⟨.closed, [(Node.dateKey, .text spelling)]⟩
  | other => .error (.mismatch other.shape .fieldMap)

/-- What is known of a layout while its table is read. -/
structure Draft where
  width : Option Position
  fields : Option (NameMap Field)
  deriving DecidableEq, Repr

namespace Draft

def empty : Draft := ⟨none, none⟩

def read (d : Draft) (key : String) (node : Node) : Reading Draft :=
  match key with
  | "width" => do
    let width ← Reading.once key d.width node.position
    .ok { d with width }
  | "fields" => do
    let fields ← Reading.once key d.fields (fieldsOfNode node)
    .ok { d with fields }
  | _ => do
    node.ignore
    .ok d

def finish (d : Draft) : Reading Layout := do
  let width ← Reading.require "width" d.width
  .ok ⟨width, d.fields.getD .empty⟩

end Draft

def ofTable (t : Table) : Reading Layout := do
  let draft ← t.read .empty Draft.read
  draft.finish

end Layout

/-- Reads the outermost table of a text. -/
def Reading.ofText {α : Type} (read : Table → Reading α) (text : String) : Reading α :=
  match Table.ofText? text with
  | some t => read t
  | none => .error .malformed

def BitRange.parse (text : String) : Reading BitRange :=
  Reading.ofText (fun t => do (← t.read .empty RangeDraft.read).finish) text

def Field.parse (text : String) : Reading Field := Reading.ofText Field.ofTable text

/-- The layout that a text spells, not validated: any width, and fields past it. -/
def Layout.parse (text : String) : Reading Layout := Reading.ofText Layout.ofTable text

/-- The layout that a text spells, validated. -/
def Layout.parseValid (text : String) : Logged (Outcome LayoutError Layout) :=
  match Layout.parse text with
  | .ok layout => layout.accept
  | .error e => .quiet (.refuse (.unreadable e))

end WordFields
