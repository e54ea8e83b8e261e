import WordFields.BitRange

/-!
# Reading bits and slices of a word

Each operation checks its positions and refuses those outside the word. The forms ending in `At` are
for positions known beforehand: they take the proof that the word has them, check nothing, and make
their own mask.
-/

set_option autoImplicit false

namespace WordFields.Word

variable {s : WordSize}

/-- Whether bit `index` is set. -/
def getBit (w : Word s) (index : Position) : Outcome RangeError Bool :=
  if index < s.width then do
    let shifted ← w.shr index
    pure (shifted &&& ofBit s true == ofBit s true)
  else .refuse (.outside index s.width)

/-- The bits of `r`, right aligned: bit `r.start` of the word is bit 0 of the result. -/
def slice (w : Word s) (r : BitRange) : Outcome RangeError (Word s) := do
  r.within s
  let shifted ← w.shr r.start
  let mask ← r.mask s
  pure (shifted &&& mask)

/-- The bits `[start, stop)`; reversed positions are refused before those outside the word. -/
def sliceBetween (w : Word s) (start stop : Position) : Outcome RangeError (Word s) := do
  let r ← BitRange.ofBounds start stop
  w.slice r

/-- The lowest `width` bits as a two's complement number of `width` bits. -/
def lowSigned (w : Word s) (width : Position) : Outcome RangeError Int :=
  if width.val = 0 ∨ s.width < width then .refuse (.outside width s.width)
  else do
    let unused ← s.width.sub width
    let lifted ← w.shl unused
    lifted.sar unused

/-- The bits of `r` as a two's complement number. -/
def signedSlice (w : Word s) (r : BitRange) : Outcome RangeError Int := do
  let raw ← w.slice r
  raw.lowSigned r.length

def getBitAt (w : Word s) (index : Position) (_below : index < s.width) :
    Outcome RangeError Bool := do
  let shifted ← w.shr index
  pure (shifted &&& ofBit s true == ofBit s true)

def sliceAt (w : Word s) (start stop : Position) (_ordered : start < stop)
    (_below : stop ≤ s.width) : Outcome RangeError (Word s) := do
  let length ← stop.sub start
  let unused ← s.width.sub length
  let mask ← (ones s).shr unused
  let shifted ← w.shr start
  pure (shifted &&& mask)

end WordFields.Word
