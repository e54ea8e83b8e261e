import WordFields.Toml.Number

/-!
# Statements of a text

A text is a list of statements, each ended by a newline or the end: a header, which names a table or
an element of an array of tables, or a dotted key with a value. Every reader answers what it read
and the tokens left behind it. Values nest, so their readers carry a bound on the number of steps;
every second step takes a token, so twice the number of tokens is enough.
-/

set_option autoImplicit false

namespace WordFields.Toml

def skipBlank : List Token → List Token
  | .blank _ :: rest => rest
  | ts => ts

/-- Drops blanks and newlines, which may stand between statements and in arrays. -/
def skipLines : List Token → List Token
  | .blank _ :: rest => skipLines rest
  | .newline :: rest => skipLines rest
  | ts => ts

/-- A key: a word, or a string on one line. -/
def key? : Token → Option String
  | .word text => some (String.ofList text)
  | .quoted text false => some text
  | _ => none

/-- A dotted key, with the blanks before and behind it and around its dots. -/
def keyPath : List Token → Option (List String × List Token)
  | [] => none
  | .blank _ :: rest => keyPath rest
  | first :: rest => do
    let key ← key? first
    match rest with
    | .dot :: more =>
      let (path, left) ← keyPath more
      some (key :: path, left)
    | .blank _ :: .dot :: more =>
      let (path, left) ← keyPath more
      some (key :: path, left)
    | left => some ([key], skipBlank left)

mutual

def valueWithin : Nat → List Token → Option (Node × List Token)
  | 0, _ => none
  | _, [] => none
  | bound + 1, .openBracket :: rest => do
    let (found, left) ← itemsWithin bound rest
    some (.array found, left)
  | bound + 1, .openBrace :: rest =>
    match skipBlank rest with
    | .closeBrace :: left => some (.table .closed [], left)
    | start => do
      let (found, left) ← membersWithin bound [] start
      some (.table .closed found, left)
  | _ + 1, first :: rest => do
    let (found, used) ← scalar first rest
    some (found, rest.drop used)

/-- The items of an array behind its bracket or a comma, up to the closing bracket. -/
def itemsWithin : Nat → List Token → Option (List Node × List Token)
  | 0, _ => none
  | bound + 1, ts =>
    match skipLines ts with
    | .closeBracket :: left => some ([], left)
    | start => do
      let (item, left) ← valueWithin bound start
      match skipLines left with
      | .comma :: more =>
        let (others, left) ← itemsWithin bound more
        some (item :: others, left)
      | .closeBracket :: left => some ([item], left)
      | _ => none

/-- The entries of an inline table from a key on, up to the closing brace. -/
def membersWithin : Nat → List (String × Node) → List Token →
    Option (List (String × Node) × List Token)
  | 0, _, _ => none
  | bound + 1, entries, ts => do
    let (path, rest) ← keyPath ts
    match rest with
    | .equals :: more =>
      let (found, left) ← valueWithin bound (skipBlank more)
      let entries ← insertPath found path entries
      match skipBlank left with
      | .closeBrace :: left => some (entries, left)
      | .comma :: more => membersWithin bound entries more
      | _ => none
    | _ => none

end

/-- A value of any kind. -/
def value (ts : List Token) : Option (Node × List Token) := valueWithin (2 * ts.length + 2) ts

/-- A header `[path]`, or `[[path]]` for an element of an array of tables. -/
structure Header where
  path : List String
  array : Bool
  deriving DecidableEq, Repr

inductive Statement where
  | header (header : Header)
  | pair (path : List String) (value : Node)
  deriving Repr

def statement (ts : List Token) : Option (Statement × List Token) :=
  match ts with
  | .openBracket :: .openBracket :: rest => do
    match ← keyPath rest with
    | (path, .closeBracket :: .closeBracket :: left) => some (.header ⟨path, true⟩, left)
    | _ => none
  | .openBracket :: rest => do
    match ← keyPath rest with
    | (path, .closeBracket :: left) => some (.header ⟨path, false⟩, left)
    | _ => none
  | ts => do
    match ← keyPath ts with
    | (path, .equals :: more) =>
      let (found, left) ← value (skipBlank more)
      some (.pair path found, left)
    | _ => none

def statementsWithin : Nat → List Token → Option (List Statement)
  | 0, _ => none
  | bound + 1, ts =>
    match skipLines ts with
    | [] => some []
    | start => do
      let (first, left) ← statement start
      match skipBlank left with
      | [] => some [first]
      | .newline :: more =>
        let others ← statementsWithin bound more
        some (first :: others)
      | _ => none

/-- All statements of a text, each on a line of its own. -/
def statements (ts : List Token) : Option (List Statement) := statementsWithin (ts.length + 1) ts

end WordFields.Toml
