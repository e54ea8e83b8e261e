import WordFields.BitRange

/-!
# Messages tell which error they are about

The message of a refused index, range or value has two numbers in it. Digits end where something
else stands behind them, so both numbers can be read off, and the first letter tells the kind of the
error. Two different errors therefore never have the same message.
-/

set_option autoImplicit false

namespace WordFields

namespace Text

/-- Digits with something else behind them are a number and what is behind it. -/
theorem toDigits_cons_inj {m n : Nat} {c d : Char} (cOther : c.isDigit = false)
    (dOther : d.isDigit = false) {l r : List Char}
    (same : Nat.toDigits 10 m ++ c :: l = Nat.toDigits 10 n ++ d :: r) :
    m = n ∧ c :: l = d :: r := by
  have digits : ∀ (k : Nat) {e : Char} (rest : List Char), e.isDigit = false →
      (Nat.toDigits 10 k ++ e :: rest).takeWhile Char.isDigit = Nat.toDigits 10 k := by
    intro k e rest other
    have areDigits : ∀ c ∈ Nat.toDigits 10 k, c.isDigit = true := fun _ mem =>
      Nat.isDigit_of_mem_toDigits (by decide) (by decide) mem
    rw [List.takeWhile_append_of_pos areDigits, List.takeWhile_cons_of_neg (by simp [other]),
      List.append_nil]
  have sameDigits : Nat.toDigits 10 m = Nat.toDigits 10 n := by
    rw [← digits m l cOther, same, digits n r dOther]
  refine ⟨?_, ?_⟩
  · rw [← Nat.ofDigitChars_ten_toDigits (n := m), sameDigits, Nat.ofDigitChars_ten_toDigits]
  · rw [sameDigits] at same
    exact List.append_cancel_left same

/-- A text around two numbers. -/
def aroundNumbers (before between behind : String) (m n : Nat) : String :=
  before ++ toString m ++ between ++ toString n ++ behind

theorem aroundNumbers_toList (before between behind : String) (m n : Nat) :
    (aroundNumbers before between behind m n).toList =
      before.toList ++ (Nat.toDigits 10 m ++ (between.toList ++
        (Nat.toDigits 10 n ++ behind.toList))) := by
  simp [aroundNumbers, toString, Nat.repr]

/-- The numbers can be read off a text that does not go on with a digit behind either of them. -/
theorem aroundNumbers_inj {before between behind : String} {m n k l : Nat}
    (first : ∃ c rest, between.toList = c :: rest ∧ c.isDigit = false)
    (second : ∃ c rest, behind.toList = c :: rest ∧ c.isDigit = false)
    (same : aroundNumbers before between behind m n = aroundNumbers before between behind k l) :
    m = k ∧ n = l := by
  obtain ⟨c, between', isBetween, cOther⟩ := first
  obtain ⟨d, behind', isBehind, dOther⟩ := second
  have chars := congrArg String.toList same
  rw [aroundNumbers_toList, aroundNumbers_toList, isBetween, isBehind] at chars
  obtain ⟨sameFirst, others⟩ := toDigits_cons_inj cOther cOther (List.append_cancel_left chars)
  have tails := List.append_cancel_left (List.cons.inj others).2
  exact ⟨sameFirst, (toDigits_cons_inj dOther dOther tails).1⟩

end Text

namespace RangeError

theorem message_outside (index width : Position) : (outside index width).message =
    Text.aroundNumbers "bit " " is out of range for a " "-bit word" index.val width.val := rfl

theorem message_reversed (start stop : Position) : (reversed start stop).message =
    Text.aroundNumbers "invalid bit range " ".." ", start must be below end"
      start.val stop.val := rfl

theorem message_tooWide (bits : Nat) (length : Position) : (tooWide bits length).message =
    Text.aroundNumbers "value needs " " bits but the field is " " bits wide" bits length.val := rfl

/-- The letter that the message of an error begins with. -/
def initial : RangeError → Char
  | .outside .. => 'b'
  | .reversed .. => 'i'
  | .tooWide .. => 'v'

theorem message_initial (e : RangeError) : e.message.toList.head? = some e.initial := by
  cases e with
  | outside index width =>
    rw [message_outside, Text.aroundNumbers_toList]
    rfl
  | reversed start stop =>
    rw [message_reversed, Text.aroundNumbers_toList]
    rfl
  | tooWide bits length =>
    rw [message_tooWide, Text.aroundNumbers_toList]
    rfl

/-- An error can be told from its message. -/
theorem message_injective {e f : RangeError} (same : e.message = f.message) : e = f := by
  have initials : e.initial = f.initial := by
    rw [← Option.some_inj, ← message_initial, ← message_initial, same]
  cases e with
  | outside index width =>
    cases f with
    | outside otherIndex otherWidth =>
      rw [message_outside, message_outside] at same
      obtain ⟨sameIndex, sameWidth⟩ :=
        Text.aroundNumbers_inj ⟨' ', _, rfl, rfl⟩ ⟨'-', _, rfl, rfl⟩ same
      rw [Fin.ext sameIndex, Fin.ext sameWidth]
    | _ => simp [initial] at initials
  | reversed start stop =>
    cases f with
    | reversed otherStart otherStop =>
      rw [message_reversed, message_reversed] at same
      obtain ⟨sameStart, sameStop⟩ :=
        Text.aroundNumbers_inj ⟨'.', _, rfl, rfl⟩ ⟨',', _, rfl, rfl⟩ same
      rw [Fin.ext sameStart, Fin.ext sameStop]
    | _ => simp [initial] at initials
  | tooWide bits length =>
    cases f with
    | tooWide otherBits otherLength =>
      rw [message_tooWide, message_tooWide] at same
      obtain ⟨sameBits, sameLength⟩ :=
        Text.aroundNumbers_inj ⟨' ', _, rfl, rfl⟩ ⟨' ', _, rfl, rfl⟩ same
      rw [sameBits, Fin.ext sameLength]
    | _ => simp [initial] at initials

end RangeError

end WordFields
