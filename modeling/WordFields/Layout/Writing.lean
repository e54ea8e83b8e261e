import WordFields.Layout.Basic
import WordFields.Toml.Token

/-!
# Ranges, fields and layouts as text

Numbers are written in decimal and the sign rule only where it is not the default. A name is written
bare where it can be, else between quotes with the characters escaped that cannot stand there. The
fields of a layout are tables in name order with an empty line between them; a layout without fields
has an empty table instead.
-/

set_option autoImplicit false

namespace WordFields

namespace Toml

/-- A digit of a code point, upper case. -/
def upperHexDigit (n : Nat) : Char := (Nat.digitChar n).toUpper

def escapedChar (c : Char) : List Char :=
  if c = '\x08' then ['\\', 'b']
  else if c = '\t' then ['\\', 't']
  else if c = '\n' then ['\\', 'n']
  else if c = '\x0c' then ['\\', 'f']
  else if c = '\r' then ['\\', 'r']
  else if c = '"' then ['\\', '"']
  else if c = '\\' then ['\\', '\\']
  else if c.toNat < 0x20 ∨ c.toNat = 0x7f then
    ['\\', 'u', '0', '0', upperHexDigit (c.toNat / 16), upperHexDigit (c.toNat % 16)]
  else [c]

/-- A key as it is written. -/
def keyText (name : String) : List Char :=
  if !name.toList.isEmpty && name.toList.all isBare then name.toList
  else '"' :: name.toList.flatMap escapedChar ++ ['"']

/-- The line `key = value`. -/
def pairLine (key value : String) : String := s!"{key} = {value}\n"

end Toml

open Toml

def Position.render (p : Position) : String := toString p.val

def BitRange.render (r : BitRange) : String :=
  pairLine "start" r.start.render ++ pairLine "end" r.stop.render

def Field.render (f : Field) : String :=
  f.range.render ++ if f.signed then pairLine "signed" "true" else ""

namespace Layout

def fieldTable (name : String) (field : Field) : String :=
  "[fields." ++ String.ofList (keyText name) ++ "]\n" ++ field.render

/-- The tables of all fields, an empty line before each but the first. -/
def fieldTables : List (String × Field) → String
  | [] => "\n[fields]\n"
  | first :: rest =>
    fieldTable first.1 first.2 ++ String.join (rest.map fun e => "\n" ++ fieldTable e.1 e.2)

def render (l : Layout) : String :=
  pairLine "width" l.width.render ++ fieldTables l.fields.entries

end Layout

end WordFields
