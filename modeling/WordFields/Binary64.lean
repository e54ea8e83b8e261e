/-!
# Binary floating-point numbers of 64 bits

A finite number is `m · 2^q` with `m` below `2^53` and `q` at least -1074. Reading a decimal rounds
its exact value once, a half going to the even neighbour. Printing finds the fewest digits that
round back to the number and writes them positionally, however large or small the number is. All
arithmetic is on naturals; a quotient is kept as numerator and denominator.
-/

set_option autoImplicit false

namespace WordFields

inductive Binary64 where
  | nan
  | infinity (negative : Bool)
  | finite (negative : Bool) (m : Nat) (q : Int)
  deriving DecidableEq, Repr

/-- A positive quotient, not reduced. -/
structure Quotient where
  num : Nat
  den : Nat

namespace Quotient

/-- The quotient times `base ^ e`. -/
def scale (x : Quotient) (base : Nat) : Int → Quotient
  | .ofNat k => ⟨x.num * base.pow k, x.den⟩
  | .negSucc k => ⟨x.num, x.den * base.pow (k + 1)⟩

def floor (x : Quotient) : Nat := x.num / x.den

/-- The nearest natural number, a half going to the even one. -/
def round (x : Quotient) : Nat :=
  let low := x.num / x.den
  let twice := 2 * (x.num % x.den)
  if x.den < twice ∨ (x.den = twice ∧ low % 2 = 1) then low + 1 else low

def lt (x y : Quotient) : Bool := x.num * y.den < y.num * x.den

def le (x y : Quotient) : Bool := x.num * y.den ≤ y.num * x.den

/-- The exponent `e` with `10 ^ e ≤ x < 10 ^ (e + 1)`, for `x` above 0. -/
def decimalExponent (x : Quotient) : Int :=
  let guess : Int := (Nat.toDigits 10 x.num).length - (Nat.toDigits 10 x.den).length
  if (Quotient.mk 1 1).scale 10 guess |>.le x then guess else guess - 1

end Quotient

namespace Binary64

/-- The number nearest to `x`, which is above 0, or `none` if that would need an exponent past the
largest. -/
def nearest (negative : Bool) (x : Quotient) : Option Binary64 :=
  let guess : Int := max ((x.num.log2 : Int) - x.den.log2 - 53) (-1074)
  let q := if (x.scale 2 (-guess)).floor < 0x20000000000000 then guess else guess + 1
  let m := (x.scale 2 (-q)).round
  let (m, q) := if m = 0x20000000000000 then (0x10000000000000, q + 1) else (m, q)
  if 971 < q then none else some (.finite negative m q)

/-- The number nearest to `digits · 10^exponent`, if its magnitude is not too large. Far outside the
range of the format the exponent alone decides. -/
def ofDecimal (negative : Bool) (digits : Nat) (exponent : Int) : Option Binary64 :=
  let magnitude := (Nat.toDigits 10 digits).length + exponent
  if digits = 0 ∨ magnitude < -330 then some (.finite negative 0 (-1074))
  else if 310 < magnitude then none
  else nearest negative ((Quotient.mk digits 1).scale 10 exponent)

/-- The quotients that round to `m · 2^q`, as lower end, upper end, and whether the ends belong. -/
def interval (m : Nat) (q : Int) : Quotient × Quotient × Bool :=
  let unit : Quotient := (Quotient.mk 1 4).scale 2 q
  let below := if m = 0x10000000000000 ∧ -1074 < q then 4 * m - 1 else 4 * m - 2
  (⟨unit.num * below, unit.den⟩, ⟨unit.num * (4 * m + 2), unit.den⟩, m % 2 = 0)

/-- A multiple of `10 ^ p` that rounds to `m · 2^q`, the nearest to it of the two around it; of two
equally near the upper. -/
def onGrid? (m : Nat) (q p : Int) : Option Nat :=
  let x := (Quotient.mk m 1).scale 2 q
  let (lower, upper, closed) := interval m q
  let onPoint (d : Nat) : Quotient := (Quotient.mk d 1).scale 10 p
  let reads (d : Nat) : Bool :=
    if closed then lower.le (onPoint d) && (onPoint d).le upper
    else lower.lt (onPoint d) && (onPoint d).lt upper
  let scaled := x.scale 10 (-p)
  let d := scaled.floor
  let upperNearer := scaled.den ≤ 2 * (scaled.num % scaled.den)
  match reads d, reads (d + 1) with
  | true, true => some (if upperNearer then d + 1 else d)
  | true, false => some d
  | false, true => some (d + 1)
  | false, false => none

/-- The fewest digits that round to `m · 2^q`, with their exponent. Seventeen always do. -/
def shortest (m : Nat) (q : Int) : Nat × Int :=
  let top := ((Quotient.mk m 1).scale 2 q).decimalExponent
  let grids := (List.range 17).map fun (k : Nat) => top - (k : Int)
  (grids.findSome? fun p => (onGrid? m q p).map fun d => (d, p)).getD (0, 0)

/-- `d · 10^p` without exponent, with a point only if digits stand behind it. -/
def positional (d : Nat) (p : Int) : List Char :=
  let digits := Nat.toDigits 10 d
  if 0 ≤ p then digits ++ List.replicate p.toNat '0'
  else
    let places := p.natAbs
    let padded := List.replicate (places + 1 - digits.length) '0' ++ digits
    let whole := padded.take (padded.length - places)
    let part := ((padded.drop (padded.length - places)).reverse.dropWhile (· == '0')).reverse
    if part.isEmpty then whole else whole ++ '.' :: part

def display : Binary64 → String
  | .nan => "NaN"
  | .infinity negative => if negative then "-inf" else "inf"
  | .finite negative m q =>
    let digits := if m = 0 then ['0'] else positional (shortest m q).1 (shortest m q).2
    String.ofList (if negative then '-' :: digits else digits)

/-- The display of the number with at least one place behind the point. -/
def displayPointed (x : Binary64) : String :=
  match x with
  | .finite .. =>
    let text := x.display
    if text.toList.contains '.' then text else text ++ ".0"
  | _ => x.display

end Binary64

end WordFields
