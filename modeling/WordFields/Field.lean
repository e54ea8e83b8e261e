import WordFields.Word.Slice

/-!
# Fields and their values

A field is a range with a sign rule. Its value is the unsigned number of its bits, in 128 bits, or
their two's complement reading. The text of an entry is `name [start..stop] = value`, with unsigned
values in hexadecimal and signed ones in decimal.
-/

set_option autoImplicit false

namespace WordFields

structure Field where
  range : BitRange
  signed : Bool
  deriving DecidableEq, Repr

inductive Value where
  | unsigned (value : Word .b128)
  | signed (value : Int)
  deriving DecidableEq, Repr

/-- One field of a decoded word. -/
structure Entry where
  name : String
  range : BitRange
  value : Value
  deriving DecidableEq, Repr

/-- The digits of `n` in lower-case hexadecimal, no leading zero. -/
def hexadecimal (n : Nat) : String := String.ofList (Nat.toDigits 16 n)

/-- The digits of `n` in base 2, no leading zero. -/
def binary (n : Nat) : String := String.ofList (Nat.toDigits 2 n)

def Value.text : Value → String
  | .unsigned v => "0x" ++ hexadecimal v.toNat
  | .signed v => toString v

def Entry.text (e : Entry) : String := s!"{e.name} [{e.range.text}] = {e.value.text}"

/-- The field's value in `w`. The raw bits are widened first, so every signed field is extended in
128 bits; the length of a range that lies within the word is right for that. -/
def Field.value {s : WordSize} (f : Field) (w : Word s) : Outcome RangeError Value := do
  let raw ← w.slice f.range
  if f.signed then
    let value ← (raw.zeroExtend.lowSigned f.range.length).demand RangeError.message
    pure (.signed value)
  else
    pure (.unsigned raw.zeroExtend)

end WordFields
