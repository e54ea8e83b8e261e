import WordFields.Word.Basic

/-!
# Ranges of bit positions

A `BitRange` is a half-open range `[start, stop)` of positions, never empty or reversed. Whether it
lies within a word is asked when it is used (`within`), since one range serves words of every size.
-/

set_option autoImplicit false

namespace WordFields

/-- Why an index, a range or a value is refused. -/
inductive RangeError where
  /-- A position or a width past the word. -/
  | outside (index width : Position)
  /-- A start that is not below the end. -/
  | reversed (start stop : Position)
  /-- A value of `bits` bits for a range of `length`. -/
  | tooWide (bits : Nat) (length : Position)
  deriving DecidableEq, Repr

def RangeError.message : RangeError → String
  | .outside index width =>
    s!"bit {index.val} is out of range for a {width.val}-bit word"
  | .reversed start stop =>
    s!"invalid bit range {start.val}..{stop.val}, start must be below end"
  | .tooWide bits length =>
    s!"value needs {bits} bits but the field is {length.val} bits wide"

structure BitRange where
  start : Position
  stop : Position
  start_lt_stop : start < stop
  deriving DecidableEq, Repr

namespace BitRange

def ofBounds (start stop : Position) : Outcome RangeError BitRange :=
  if h : start < stop then .ok ⟨start, stop, h⟩ else .refuse (.reversed start stop)

/-- The range from `first` to `last`, both included. -/
def ofFirstLast (first last : Position) : Outcome RangeError BitRange :=
  match last.next? with
  | some stop => ofBounds first stop
  | none => .refuse (.outside last WordSize.b128.width)

/-- The range of one position. -/
def single (index : Position) : Outcome RangeError BitRange :=
  match h : index.next? with
  | some stop =>
    .ok ⟨index, stop, Fin.lt_def.2 (by have := Position.ofNat?_eq_some_iff.1 h; omega)⟩
  | none => .refuse (.outside index WordSize.b128.width)

/-- All bits of a word of size `s`. -/
def whole (s : WordSize) : BitRange :=
  ⟨0, s.width, by have := s.bits_pos; simpa [Fin.lt_def] using this⟩

def ofPair (bounds : Position × Position) : Outcome RangeError BitRange :=
  ofBounds bounds.1 bounds.2

def toPair (r : BitRange) : Position × Position := (r.start, r.stop)

/-- The number of positions in the range, never 0. -/
def length (r : BitRange) : Position := ⟨r.stop.val - r.start.val, by omega⟩

def contains (r : BitRange) (index : Position) : Bool := r.start ≤ index && index < r.stop

/-- The two ranges have a position in common. -/
def meets (r q : BitRange) : Bool := r.start < q.stop && q.start < r.stop

/-- Refused unless the range lies within a word of size `s`. -/
def within (r : BitRange) (s : WordSize) : Outcome RangeError Unit :=
  if r.stop ≤ s.width then .ok () else .refuse (.outside r.stop s.width)

/-- The word with the lowest `length` bits set, made from all ones so that the full range needs no
shift by the whole width. The caller has checked that the range lies within the word. -/
def mask {ε : Type} (r : BitRange) (s : WordSize) : Outcome ε (Word s) :=
  if r.stop ≤ s.width then do
    let unused ← s.width.sub r.length
    (Word.ones s).shr unused
  else .stop .rangePastWord

def text (r : BitRange) : String := s!"{r.start.val}..{r.stop.val}"

theorem val_start_lt (r : BitRange) : r.start.val < r.stop.val := r.start_lt_stop

theorem start_add_length (r : BitRange) : r.start.val + r.length.val = r.stop.val := by
  have := r.val_start_lt
  simp only [length]
  omega

theorem length_pos (r : BitRange) : 0 < r.length.val := by
  have := r.val_start_lt
  simp only [length]
  omega

theorem contains_iff (r : BitRange) (i : Position) :
    r.contains i = true ↔ r.start ≤ i ∧ i < r.stop := by
  simp [contains]

end BitRange

end WordFields
