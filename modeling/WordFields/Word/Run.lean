import WordFields.Word.Put
import WordFields.Field

/-!
# Runs of operations on one word

A step reads the current word or writes it. A write that succeeds makes its result the current word;
a read, a refusal or a fault leaves the word as it was. Steps name positions, not ranges, so a
reversed range is refused by the step itself, whatever its form; only `sliceBetween` demands it too.
-/

set_option autoImplicit false

namespace WordFields

/-- Whether the caller takes refusals or vouches for the input. -/
inductive Form where
  | checked | demanding
  deriving DecidableEq, Repr

/-- The outcome of a checked operation in this form. -/
def Form.of {α : Type} (form : Form) (checked : Outcome RangeError α) : Outcome RangeError α :=
  match form with
  | .checked => checked
  | .demanding => checked.demand RangeError.message

/-- What can be said about a word as a whole. -/
structure WordFacts (s : WordSize) where
  bits : Nat
  bytes : Nat
  max : Word s
  signed : Int
  extended : Word .b128
  bitLength : Nat
  binary : String
  hexadecimal : String
  deriving DecidableEq, Repr

def Word.facts {s : WordSize} (w : Word s) : WordFacts s where
  bits := s.bits
  bytes := s.bytes
  max := Word.ones s
  signed := w.signed
  extended := w.zeroExtend
  bitLength := w.bitLength
  binary := WordFields.binary w.toNat
  hexadecimal := WordFields.hexadecimal w.toNat

inductive WordStep (s : WordSize) where
  | facts
  | getBit (form : Form) (index : Position)
  | getBitAt (index : Position) (below : index < s.width)
  | slice (form : Form) (start stop : Position)
  | sliceBetween (form : Form) (start stop : Position)
  | sliceAt (start stop : Position) (ordered : start < stop) (below : stop ≤ s.width)
  | signedSlice (form : Form) (start stop : Position)
  | lowSigned (form : Form) (width : Position)
  | putBit (form : Form) (index : Position) (bit : Bool)
  | put (start stop : Position) (value : Word s)
  | overwrite (start stop : Position) (value : Word s)
  | mask (start stop : Position)
  | fieldValue (start stop : Position) (signed : Bool)

inductive WordAnswer (s : WordSize) where
  | facts (facts : WordFacts s)
  | bit (bit : Bool)
  | word (word : Word s)
  | signed (value : Int)
  | value (value : Value)
  deriving DecidableEq

namespace WordStep

variable {s : WordSize}

def run (w : Word s) : WordStep s → Outcome RangeError (WordAnswer s)
  | .facts => pure (.facts w.facts)
  | .getBit form index => .bit <$> form.of (w.getBit index)
  | .getBitAt index below => .bit <$> w.getBitAt index below
  | .slice form start stop => do
    let r ← BitRange.ofBounds start stop
    .word <$> form.of (w.slice r)
  | .sliceBetween form start stop => .word <$> form.of (w.sliceBetween start stop)
  | .sliceAt start stop ordered below => .word <$> w.sliceAt start stop ordered below
  | .signedSlice form start stop => do
    let r ← BitRange.ofBounds start stop
    .signed <$> form.of (w.signedSlice r)
  | .lowSigned form width => .signed <$> form.of (w.lowSigned width)
  | .putBit form index bit => .word <$> form.of (w.putBit index bit)
  | .put start stop value => do
    let r ← BitRange.ofBounds start stop
    .word <$> w.put r value
  | .overwrite start stop value => do
    let r ← BitRange.ofBounds start stop
    .word <$> w.overwrite r value
  | .mask start stop => do
    let r ← BitRange.ofBounds start stop
    .word <$> r.mask s
  | .fieldValue start stop signed => do
    let r ← BitRange.ofBounds start stop
    .value <$> Field.value ⟨r, signed⟩ w

/-- The step replaces the current word when it succeeds. -/
def writes : WordStep s → Bool
  | .putBit .. => true
  | .put .. => true
  | .overwrite .. => true
  | _ => false

/-- The current word after the step. -/
def next (w : Word s) (step : WordStep s) : Word s :=
  match step.writes, step.run w with
  | true, .ok (.word written) => written
  | _, _ => w

/-- Each step's answer with the word after it. -/
def runAll (w : Word s) : List (WordStep s) → List (Outcome RangeError (WordAnswer s) × Word s)
  | [] => []
  | step :: rest => (step.run w, step.next w) :: runAll (step.next w) rest

/-- The word after all steps. -/
def final (w : Word s) (steps : List (WordStep s)) : Word s := steps.foldl next w

end WordStep

end WordFields
