import WordFields.Toml.Node
import WordFields.Toml.Lexer

/-!
# Numbers and dates

A number or a date starts with a word and may go on over the tokens behind it: a point and a word,
a plus sign and a word, or the parts of a time. Each reader here answers the value and how many of
the tokens behind the first word belong to it.
-/

set_option autoImplicit false

namespace WordFields.Toml

/-- The value of a digit, letters counting from 10 in either case; 36 for all else. -/
def digitValue (c : Char) : Nat := (Lexer.hexDigit? c).getD 36

/-- Digits with single underscores between them. -/
def wellSpaced : List Char → Bool
  | [] => false
  | [c] => c != '_'
  | c :: '_' :: rest => c != '_' && wellSpaced rest
  | c :: rest => c != '_' && wellSpaced rest

/-- The longest run of digits and underscores, without the underscores, and what stands behind it. A
leading zero stands alone unless `zeros`. -/
def digitRun (base : Nat) (zeros : Bool) (text : List Char) : Option (List Char × List Char) :=
  let run := text.takeWhile fun c => digitValue c < base || c == '_'
  if wellSpaced run && (zeros || run.head? != some '0' || run.length == 1) then
    some (run.filter (· != '_'), text.drop run.length)
  else none

def digitsValue (base : Nat) (digits : List Char) : Nat :=
  digits.foldl (fun n c => base * n + digitValue c) 0

/-- Splits off a minus sign. -/
def splitMinus : List Char → Bool × List Char
  | '-' :: rest => (true, rest)
  | text => (false, text)

/-- Integers of a text have 64 bits and a sign. -/
def inIntegerRange (n : Int) : Bool := -0x8000000000000000 ≤ n && n < 0x8000000000000000

def decimalInteger (text : List Char) : Option Int := do
  let (negative, body) := splitMinus text
  let (digits, rest) ← digitRun 10 false body
  let magnitude : Int := digitsValue 10 digits
  let value := if negative then -magnitude else magnitude
  if rest.isEmpty && inIntegerRange value then some value else none

/-- An integer in another base, without a sign. -/
def basedInteger (base : Nat) (text : List Char) : Option Int := do
  let (digits, rest) ← digitRun base true text
  let value : Int := digitsValue base digits
  if rest.isEmpty && inIntegerRange value then some value else none

/-- The exponent behind a number's digits, given the rest of the word and the tokens behind it. -/
def exponent (text : List Char) (following : List Token) : Option (Int × Nat) :=
  match text with
  | [] => some (0, 0)
  | mark :: rest =>
    if mark != 'e' && mark != 'E' then none
    else if rest.isEmpty then
      match following with
      | .plus :: .word digits :: _ => do
        let (digits, tail) ← digitRun 10 true digits
        if tail.isEmpty then some ((digitsValue 10 digits : Int), 2) else none
      | _ => none
    else do
      let (negative, body) := splitMinus rest
      let (digits, tail) ← digitRun 10 true body
      let magnitude : Int := digitsValue 10 digits
      if tail.isEmpty then some (if negative then -magnitude else magnitude, 0) else none

/-- A floating-point number from its first word, the word behind its point if it has one, and the
tokens behind both. One too large for the format is refused. -/
def float (text : List Char) (places : Option (List Char)) (following : List Token) :
    Option (Node × Nat) := do
  let (negative, body) := splitMinus text
  let (whole, tail) ← digitRun 10 false body
  let (part, tail) ←
    match places with
    | none => some ([], tail)
    | some places => if tail.isEmpty then digitRun 10 true places else none
  let (power, used) ← exponent tail following
  let value ← Binary64.ofDecimal negative (digitsValue 10 (whole ++ part)) (power - part.length)
  some (.float value, used)

def number (text : List Char) (following : List Token) : Option (Node × Nat) :=
  match text with
  | '0' :: 'x' :: digits => do
    let n ← basedInteger 16 digits
    some (.integer n, 0)
  | '0' :: 'o' :: digits => do
    let n ← basedInteger 8 digits
    some (.integer n, 0)
  | '0' :: 'b' :: digits => do
    let n ← basedInteger 2 digits
    some (.integer n, 0)
  | _ =>
    if text.contains 'e' || text.contains 'E' then float text none following
    else match following with
      | .dot :: .word places :: following => do
        let (value, used) ← float text (some places) following
        some (value, used + 2)
      | .dot :: _ => none
      | _ =>
        if text = "inf".toList then some (.float (.infinity false), 0)
        else if text = "-inf".toList then some (.float (.infinity true), 0)
        else if text = "nan".toList || text = "-nan".toList then some (.float .nan, 0)
        else do
          let n ← decimalInteger text
          some (.integer n, 0)

/-- A mark and a word behind it, or neither: how many tokens that is. -/
def optionalPart (mark : Token) : List Token → Option Nat
  | [] => some 0
  | first :: rest =>
    if first = mark then
      match rest with
      | .word _ :: _ => some 2
      | _ => none
    else some 0

/-- The minutes and seconds behind the first colon of a time, with what may follow them. -/
def timeTail : List Token → Option Nat
  | .word _ :: .colon :: .word _ :: rest => do
    let fraction ← optionalPart .dot rest
    let offset ← optionalPart .plus (rest.drop fraction)
    let minutes ← optionalPart .colon (rest.drop (fraction + offset))
    some (3 + fraction + offset + minutes)
  | _ => none

/-- The tokens behind the first word of a date: an hour after one space, and a time. -/
def dateTail (following : List Token) : Option Nat :=
  let hour :=
    match following with
    | .blank [' '] :: .word _ :: _ => 2
    | _ => 0
  match following.drop hour with
  | .colon :: rest => do
    let used ← timeTail rest
    some (hour + 1 + used)
  | _ => some hour

def hasPair (a b : Char) : List Char → Bool
  | c :: d :: rest => (c == a && d == b) || hasPair a b (d :: rest)
  | _ => false

/-- A word with a `T`, or with a `-` inside that is not an exponent's sign, is a date. -/
def isDateWord (text : List Char) : Bool :=
  text.contains 'T' || text.contains 't' ||
    (text.tail.contains '-' && !hasPair 'e' '-' text && !hasPair 'E' '-' text)

def date (text : List Char) (following : List Token) : Option (Node × Nat) := do
  let used ← dateTail following
  let spelling := text ++ (following.take used).flatMap Token.spelling
  some (.date (String.ofList spelling), used)

def numberOrDate (text : List Char) (following : List Token) : Option (Node × Nat) :=
  if isDateWord text then date text following
  else match following with
    | .colon :: rest => do
      let used ← timeTail rest
      let spelling := text ++ (following.take (used + 1)).flatMap Token.spelling
      some (.date (String.ofList spelling), used + 1)
    | _ => number text following

/-- A value that is not a table or an array, from its first token. -/
def scalar (first : Token) (following : List Token) : Option (Node × Nat) :=
  match first with
  | .quoted text _ => some (.text text, 0)
  | .plus =>
    match following with
    | .word text :: following => do
      let (value, used) ← number text following
      some (value, used + 1)
    | _ => none
  | .word text =>
    if text = "true".toList then some (.boolean true, 0)
    else if text = "false".toList then some (.boolean false, 0)
    else if text = "inf".toList || text = "nan".toList then numberOrDate text following
    else match text with
      | '-' :: _ => numberOrDate text following
      | c :: _ => if digitValue c < 10 then numberOrDate text following else none
      | [] => none
  | _ => none

end WordFields.Toml
