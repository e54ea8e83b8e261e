import WordFields.Position

/-!
# Words

A word is a bit vector of one of six sizes, the last being the size of a position. Bits are numbered
from 0, the least significant. Shifts are defined only below the width; a longer shift is a fault.
-/

set_option autoImplicit false

namespace WordFields

inductive WordSize where
  | b8 | b16 | b32 | b64 | b128 | native
  deriving DecidableEq, Repr

namespace WordSize

def bits : WordSize → Nat
  | .b8 => 8
  | .b16 => 16
  | .b32 => 32
  | .b64 => 64
  | .b128 => 128
  | .native => 64

def bytes (s : WordSize) : Nat := s.bits / 8

theorem bits_pos (s : WordSize) : 0 < s.bits := by cases s <;> decide

theorem bits_le (s : WordSize) : s.bits ≤ 128 := by cases s <;> decide

/-- The number of bits as a position: the one just past the word. -/
def width (s : WordSize) : Position := ⟨s.bits, Nat.lt_of_le_of_lt s.bits_le (by decide)⟩

@[simp] theorem val_width (s : WordSize) : s.width.val = s.bits := rfl

end WordSize

abbrev Word (s : WordSize) := BitVec s.bits

namespace Word

variable {s : WordSize} {ε : Type}

/-- The largest word: every bit set. -/
def ones (s : WordSize) : Word s := BitVec.allOnes s.bits

/-- The word whose bit 0 is `bit`, all others clear. -/
def ofBit (s : WordSize) (bit : Bool) : Word s := BitVec.ofNat s.bits bit.toNat

def shl (w : Word s) (n : Position) : Outcome ε (Word s) :=
  if n < s.width then .ok (w <<< n.val) else .stop .shiftTooFar

def shr (w : Word s) (n : Position) : Outcome ε (Word s) :=
  if n < s.width then .ok (w >>> n.val) else .stop .shiftTooFar

/-- Right shift of the two's complement reading of `w`, rounding toward minus infinity. -/
def sar (w : Word s) (n : Position) : Outcome ε Int :=
  if n < s.width then .ok (BitVec.sshiftRight w n.val).toInt else .stop .shiftTooFar

/-- The two's complement reading of all bits. -/
def signed (w : Word s) : Int := BitVec.toInt w

/-- The same number as a word of 128 bits. -/
def zeroExtend (w : Word s) : Word .b128 := BitVec.setWidth 128 w

/-- The number of bits up to the highest one set, 0 for zero. -/
def bitLength (w : Word s) : Nat :=
  if w.toNat = 0 then 0 else w.toNat.log2 + 1

end Word

end WordFields
