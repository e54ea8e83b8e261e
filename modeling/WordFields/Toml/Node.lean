import WordFields.ReadError

/-!
# Values of a text

A table keeps its entries in the order in which they are met, with repeated keys kept. Its kind says
how it may grow and where it breaks off: dotted keys extend only tables that dotted keys made, and a
table whose header stands twice is malformed behind its entries. That fault counts only for a reader
who gets that far, so it is part of the value and not of the grammar.
-/

set_option autoImplicit false

namespace WordFields.Toml

inductive TableKind where
  | closed | dotted | repeated
  deriving DecidableEq, Repr

inductive Node where
  | integer (value : Int)
  | float (value : Binary64)
  | boolean (value : Bool)
  | text (value : String)
  /-- A date or time, as spelled. -/
  | date (spelling : String)
  | array (items : List Node)
  | table (kind : TableKind) (entries : List (String × Node))
  deriving Repr

/-- A whole text: its outermost table. -/
structure Table where
  kind : TableKind
  entries : List (String × Node)
  deriving Repr

def Table.node (t : Table) : Node := .table t.kind t.entries

namespace Node

/-- A date is presented as a table with this one key, which nobody looks for. -/
def dateKey : String := "date"

def shape : Node → Shape
  | .integer n => .integer n
  | .float x => .float x
  | .boolean b => .boolean b
  | .text t => .text t
  | .date _ => .map
  | .array _ => .sequence
  | .table _ _ => .map

mutual

/-- No table in the value is opened by two headers. -/
def intact : Node → Bool
  | .array items => itemsIntact items
  | .table kind entries => entriesIntact entries && kind != .repeated
  | _ => true

def itemsIntact : List Node → Bool
  | [] => true
  | item :: rest => item.intact && itemsIntact rest

def entriesIntact : List (String × Node) → Bool
  | [] => true
  | entry :: rest => entryIntact entry && entriesIntact rest

def entryIntact : String × Node → Bool
  | (_, node) => node.intact

end

end Node

/-- Continues the dotted table that is the first value of `key`, or starts one at the end. A first
value of another kind cannot be continued. -/
def extendFirst (key : String) (grow : List (String × Node) → Option (List (String × Node))) :
    List (String × Node) → Option (List (String × Node))
  | [] => do
    let entries ← grow []
    some [(key, .table .dotted entries)]
  | (name, node) :: rest =>
    if name = key then
      match node with
      | .table .dotted entries => do
        let entries ← grow entries
        some ((name, .table .dotted entries) :: rest)
      | _ => none
    else do
      let rest ← extendFirst key grow rest
      some ((name, node) :: rest)

/-- Adds a value under a dotted key. A key of one part is added whether or not it is there. -/
def insertPath (value : Node) : List String → List (String × Node) → Option (List (String × Node))
  | [], _ => none
  | [key], entries => some (entries ++ [(key, value)])
  | key :: path, entries => extendFirst key (insertPath value path) entries

end WordFields.Toml
