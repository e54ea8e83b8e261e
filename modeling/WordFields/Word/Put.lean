import WordFields.Word.Slice

/-!
# Replacing bits and slices of a word

`put` refuses a value wider than the range. `overwrite` keeps the lowest bits of the value and
ignores the rest; a range outside the word is a fault there.
-/

set_option autoImplicit false

namespace WordFields.Word

variable {s : WordSize}

def putBit (w : Word s) (index : Position) (bit : Bool) : Outcome RangeError (Word s) :=
  if index < s.width then do
    let hole ← (ofBit s true).shl index
    let placed ← (ofBit s bit).shl index
    pure ((w &&& ~~~hole) ||| placed)
  else .refuse (.outside index s.width)

def overwrite (w : Word s) (r : BitRange) (value : Word s) : Outcome RangeError (Word s) := do
  (r.within s).demand RangeError.message
  let mask ← r.mask s
  let hole ← mask.shl r.start
  let placed ← (value &&& mask).shl r.start
  pure ((w &&& ~~~hole) ||| placed)

def put (w : Word s) (r : BitRange) (value : Word s) : Outcome RangeError (Word s) := do
  r.within s
  if r.length.val < value.bitLength then .refuse (.tooWide value.bitLength r.length)
  else w.overwrite r value

end WordFields.Word
