import WordFields.BitRange
import WordFields.Binary64
import WordFields.Text.Quoted

/-!
# Why a text is not a range, a field or a layout

A text that is not TOML, or that opens one table twice, is refused without a message. All other
errors name what was found and what was expected there.
-/

set_option autoImplicit false

namespace WordFields

/-- The kind of a value found in a text. -/
inductive Shape where
  | integer (value : Int)
  | float (value : Binary64)
  | boolean (value : Bool)
  | text (value : String)
  | sequence
  | map
  deriving DecidableEq, Repr

def Shape.describe : Shape → String
  | .integer n => s!"integer `{n}`"
  | .float x => s!"floating point `{x.displayPointed}`"
  | .boolean b => s!"boolean `{b}`"
  | .text t => s!"string {Text.quoted t}"
  | .sequence => "sequence"
  | .map => "map"

/-- What a place in a text has to hold. -/
inductive Expected where
  | position | flag | fieldMap | field
  deriving DecidableEq, Repr

def Expected.describe : Expected → String
  | .position => "usize"
  | .flag => "a boolean"
  | .fieldMap => "a map"
  | .field => "struct RawField"

inductive ReadError where
  /-- The text is not TOML. -/
  | malformed
  /-- A table is opened by two headers. -/
  | repeatedTable
  | missing (key : String)
  | duplicate (key : String)
  /-- An integer that is no position. -/
  | notPosition (value : Int)
  | mismatch (found : Shape) (expected : Expected)
  /-- An array with too few elements for a field. -/
  | tooShort (length : Nat)
  /-- An array with elements left over after a field. -/
  | tooLong (length : Nat)
  | range (error : RangeError)
  deriving DecidableEq, Repr

/-- What is wrong, where this library or the reader of texts words it. The reader adds at which key,
or on which line and column, it stopped; that is left out here. -/
def ReadError.message : ReadError → Option String
  | .malformed => none
  | .repeatedTable => none
  | .missing key => some s!"missing field `{key}`"
  | .duplicate key => some s!"duplicate field `{key}`"
  | .notPosition n =>
    some s!"invalid value: {Shape.describe (.integer n)}, expected {Expected.describe .position}"
  | .mismatch found expected =>
    some s!"invalid type: {found.describe}, expected {expected.describe}"
  | .tooShort n =>
    some s!"invalid length {n}, expected {Expected.describe .field} with 3 elements"
  | .tooLong n => some s!"invalid length {n}, expected 3 elements in sequence"
  | .range e => some e.message

end WordFields
