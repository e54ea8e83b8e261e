import Mathlib.Data.List.TakeWhile
import WordFields.Toml.Number

/-!
# Integers are read back from their digits

An integer is written as its decimal digits, behind a minus sign if it is negative, which are one
word. The reader of values takes that word for an integer and for nothing else, as long as no point
or colon follows it. An integer of more than 64 bits is too large for it, and its digits are no
value at all.
-/

set_option autoImplicit false

namespace WordFields.Toml

theorem isDigit_of_mem {n : Nat} {c : Char} (mem : c ∈ Nat.toDigits 10 n) : c.isDigit = true :=
  Nat.isDigit_of_mem_toDigits (by decide) (by decide) mem

theorem between_of_isDigit {c : Char} (digit : c.isDigit = true) :
    ('0' ≤ c && c ≤ '9') = true := by
  obtain ⟨low, high⟩ := Char.isDigit_iff_toNat.1 digit
  simp only [Bool.and_eq_true, decide_eq_true_eq, Char.le_def, UInt32.le_iff_toNat_le]
  exact ⟨low, high⟩

theorem isBare_of_isDigit {c : Char} (digit : c.isDigit = true) : isBare c = true := by
  simp [isBare, between_of_isDigit digit]

theorem digitValue_of_isDigit {c : Char} (digit : c.isDigit = true) :
    digitValue c = c.toNat - '0'.toNat := by
  simp [digitValue, Lexer.hexDigit?, between_of_isDigit digit]

theorem digitValue_lt_ten {c : Char} (digit : c.isDigit = true) : digitValue c < 10 := by
  obtain ⟨low, high⟩ := Char.isDigit_iff_toNat.1 digit
  have bound : c.toNat ≤ 57 := high
  have zero : '0'.toNat = 48 := rfl
  rw [digitValue_of_isDigit digit]
  omega

theorem digitValue_digitChar : ∀ d, d < 16 → digitValue (Nat.digitChar d) = d := by decide

section Bases

variable {base : Nat} (proper : 1 < base) (small : base ≤ 16)
include proper small

theorem digitValue_lt_of_mem {n : Nat} {c : Char}
    (mem : c ∈ Nat.toDigits base n) : digitValue c < base := by
  induction n using Nat.base_induction base proper with
  | single d isDigit =>
    rw [Nat.toDigits_of_lt_base isDigit, List.mem_singleton] at mem
    rw [mem, digitValue_digitChar d (by omega)]
    exact isDigit
  | digit m d isDigit positive ih =>
    rw [← Nat.toDigits_append_toDigits proper positive isDigit, List.mem_append,
      Nat.toDigits_of_lt_base isDigit, List.mem_singleton] at mem
    rcases mem with before | last
    · exact ih before
    · rw [last, digitValue_digitChar d (by omega)]
      exact isDigit

/-- The value of the digits of `n` is `n`, in every base whose digits are told apart. -/
theorem digitsValue_toDigits (n : Nat) : digitsValue base (Nat.toDigits base n) = n := by
  induction n using Nat.base_induction base proper with
  | single d isDigit =>
    rw [Nat.toDigits_of_lt_base isDigit]
    have value := digitValue_digitChar d (by omega)
    simp only [digitsValue, List.foldl_cons, List.foldl_nil, Nat.mul_zero, Nat.zero_add, value]
  | digit m d isDigit positive ih =>
    -- the last digit is the last one added
    rw [← Nat.toDigits_append_toDigits proper positive isDigit, digitsValue, List.foldl_append,
      ← digitsValue, ih, Nat.toDigits_of_lt_base isDigit, List.foldl_cons, List.foldl_nil,
      digitValue_digitChar d (by omega)]

end Bases

/-- Only zero starts with a zero. -/
theorem head?_toDigits {n : Nat} (positive : 0 < n) : (Nat.toDigits 10 n).head? ≠ some '0' := by
  induction n using Nat.base_induction 10 (by decide) with
  | single m small =>
    rw [Nat.toDigits_of_lt_base small]
    have digits : ∀ m, m < 10 → 0 < m → [Nat.digitChar m].head? ≠ some '0' := by decide
    exact digits m small positive
  | digit m k small above ih =>
    rw [← Nat.toDigits_append_toDigits (by decide) above small]
    cases digits : Nat.toDigits 10 m with
    | nil => exact absurd digits Nat.toDigits_ne_nil
    | cons c rest =>
      rw [digits] at ih
      exact ih above

theorem wellSpaced_of_digits {digits : List Char} (nonempty : digits ≠ [])
    (areDigits : ∀ c ∈ digits, c.isDigit = true) : wellSpaced digits = true := by
  have notUnderscore : ∀ c ∈ digits, c ≠ '_' := by
    rintro c mem rfl
    exact absurd (areDigits _ mem) (by decide)
  fun_induction wellSpaced digits with
  | case1 => exact absurd rfl nonempty
  | case2 c => simpa using notUnderscore c
  | case3 c rest _ => exact absurd rfl (notUnderscore '_' (by simp))
  | case4 c rest restNonempty _ ih =>
    rw [ih restNonempty (fun d mem => areDigits d (List.mem_cons_of_mem _ mem))
      (fun d mem => notUnderscore d (List.mem_cons_of_mem _ mem))]
    simpa using notUnderscore c List.mem_cons_self

/-- The digits of a number are one run of digits, with no zero in front of others. -/
theorem digitRun_toDigits (n : Nat) :
    digitRun 10 false (Nat.toDigits 10 n) = some (Nat.toDigits 10 n, []) := by
  have areDigits : ∀ c ∈ Nat.toDigits 10 n, c.isDigit = true := fun c mem => isDigit_of_mem mem
  have run : (Nat.toDigits 10 n).takeWhile (fun c => digitValue c < 10 || c == '_') =
      Nat.toDigits 10 n := by
    rw [List.takeWhile_eq_self_iff]
    intro c mem
    simp [digitValue_lt_ten (areDigits c mem)]
  have kept : (Nat.toDigits 10 n).filter (· != '_') = Nat.toDigits 10 n := by
    rw [List.filter_eq_self]
    rintro c mem
    have other : c ≠ '_' := by
      rintro rfl
      exact Nat.underscore_not_in_toDigits mem
    simpa using other
  have leading : ((Nat.toDigits 10 n).head? != some '0' || (Nat.toDigits 10 n).length == 1) =
      true := by
    rcases Nat.eq_zero_or_pos n with rfl | positive
    · decide
    · simp [head?_toDigits positive]
  simp only [digitRun, run]
  rw [wellSpaced_of_digits Nat.toDigits_ne_nil areDigits, Bool.false_or, leading,
    Bool.true_and, if_pos rfl, kept, List.drop_length]

/-- Digits, perhaps behind a minus sign. -/
structure IsDecimal (text : List Char) : Prop where
  starts : ∃ c rest, text = c :: rest ∧ (c.isDigit = true ∨ c = '-')
  digits : ∀ c ∈ text.tail, c.isDigit = true

theorem isDecimal_toDigits (n : Nat) : IsDecimal (Nat.toDigits 10 n) where
  starts := by
    obtain ⟨c, rest, digits⟩ := List.exists_cons_of_ne_nil (Nat.toDigits_ne_nil (b := 10) (n := n))
    exact ⟨c, rest, digits, .inl (isDigit_of_mem (digits ▸ List.mem_cons_self))⟩
  digits _ mem := isDigit_of_mem (List.mem_of_mem_tail mem)

theorem isDecimal_minus (n : Nat) : IsDecimal ('-' :: Nat.toDigits 10 n) where
  starts := ⟨_, _, rfl, .inr rfl⟩
  digits _ mem := isDigit_of_mem mem

namespace IsDecimal

variable {text : List Char}

/-- A character that is no digit and no sign does not occur. -/
theorem not_mem (decimal : IsDecimal text) {c : Char} (other : c.isDigit = false)
    (noSign : c ≠ '-') : c ∉ text := by
  obtain ⟨first, rest, rfl, starts⟩ := decimal.starts
  have noDigit : ¬ c.isDigit = true := by simp [other]
  intro mem
  rcases List.mem_cons.1 mem with rfl | later
  · rcases starts with digit | sign
    · exact noDigit digit
    · exact noSign sign
  · exact noDigit (decimal.digits c later)

theorem contains (decimal : IsDecimal text) {c : Char} (other : c.isDigit = false)
    (noSign : c ≠ '-') : text.contains c = false := by
  simpa using decimal.not_mem other noSign

/-- No decimal is spelt like a word with a letter in it. -/
theorem ne (decimal : IsDecimal text) {word : List Char} (c : Char) (mem : c ∈ word)
    (other : c.isDigit = false) (noSign : c ≠ '-') : text ≠ word := by
  rintro rfl
  exact decimal.not_mem other noSign mem

theorem bare (decimal : IsDecimal text) : ∀ c ∈ text, isBare c = true := by
  obtain ⟨first, rest, rfl, sign⟩ := decimal.starts
  intro c mem
  rcases List.mem_cons.1 mem with rfl | later
  · rcases sign with digit | rfl
    · exact isBare_of_isDigit digit
    · decide
  · exact isBare_of_isDigit (decimal.digits c later)

end IsDecimal

/-- What follows a number without being taken for its continuation. -/
def EndsNumber (following : List Token) : Prop :=
  following.head? ≠ some .dot ∧ following.head? ≠ some .colon

namespace IsDecimal

variable {text : List Char} {following : List Token}

/-- A decimal is an integer if it is in range, and no other number. -/
theorem number_eq (decimal : IsDecimal text) (ends : EndsNumber following) :
    number text following = (decimalInteger text).map fun n => (.integer n, 0) := by
  unfold number
  split
  next => exact absurd rfl (decimal.ne 'x' (by simp) (by decide) (by decide))
  next => exact absurd rfl (decimal.ne 'o' (by simp) (by decide) (by decide))
  next => exact absurd rfl (decimal.ne 'b' (by simp) (by decide) (by decide))
  next =>
    rw [decimal.contains (c := 'e') (by decide) (by decide),
      decimal.contains (c := 'E') (by decide) (by decide)]
    simp only [Bool.or_self, Bool.false_eq_true, if_false]
    split
    next => exact absurd rfl ends.1
    next => exact absurd rfl ends.1
    next =>
      have noInf : text ≠ "inf".toList := decimal.ne 'i' (by simp) (by decide) (by decide)
      have noMinusInf : text ≠ "-inf".toList := decimal.ne 'i' (by simp) (by decide) (by decide)
      have noNan : text ≠ "nan".toList := decimal.ne 'n' (by simp) (by decide) (by decide)
      have noMinusNan : text ≠ "-nan".toList := decimal.ne 'n' (by simp) (by decide) (by decide)
      simp only [noInf, noMinusInf, noNan, noMinusNan, if_false, decide_false, Bool.or_self,
        Bool.false_eq_true]
      cases decimalInteger text <;> rfl

theorem isDateWord_eq (decimal : IsDecimal text) : isDateWord text = false := by
  have behind : text.tail.contains '-' = false := by
    have absent : '-' ∉ text.tail := fun mem => absurd (decimal.digits _ mem) (by decide)
    simpa using absent
  rw [isDateWord, decimal.contains (c := 'T') (by decide) (by decide),
    decimal.contains (c := 't') (by decide) (by decide), behind]
  rfl

/-- As a value it is that integer, or nothing. -/
theorem scalar_eq (decimal : IsDecimal text) (ends : EndsNumber following) :
    scalar (.word text) following = (decimalInteger text).map fun n => (.integer n, 0) := by
  have read : numberOrDate text following =
      (decimalInteger text).map fun n => (.integer n, 0) := by
    unfold numberOrDate
    rw [decimal.isDateWord_eq]
    split
    next => contradiction
    next =>
      split
      next => exact absurd rfl ends.2
      next => exact decimal.number_eq ends
  obtain ⟨c, rest, isText, sign⟩ := decimal.starts
  have noTrue : text ≠ "true".toList := decimal.ne 't' (by simp) (by decide) (by decide)
  have noFalse : text ≠ "false".toList := decimal.ne 'f' (by simp) (by decide) (by decide)
  unfold scalar
  simp only [noTrue, noFalse, if_false]
  split
  next => exact read
  next =>
    rw [isText] at read ⊢
    rcases sign with digit | rfl
    · split
      next => exact read
      next c rest _ same =>
        cases same
        rw [if_pos (digitValue_lt_ten digit)]
        exact read
      next same => cases same
    · exact read

end IsDecimal

theorem splitMinus_toDigits (n : Nat) :
    splitMinus (Nat.toDigits 10 n) = (false, Nat.toDigits 10 n) := by
  rw [splitMinus]
  intro rest starts
  have sign : '-' ∈ Nat.toDigits 10 n := starts ▸ List.mem_cons_self
  exact absurd (isDigit_of_mem sign) (by decide)

/-- An integer is its run of digits with the sign in front of it, if it is in range. -/
theorem decimalInteger_of_split {text : List Char} {negative : Bool} {n : Nat}
    (split : splitMinus text = (negative, Nat.toDigits 10 n)) :
    decimalInteger text =
      let value : Int := if negative then -n else n
      if inIntegerRange value then some value else none := by
  unfold decimalInteger
  rw [split]
  dsimp only
  rw [digitRun_toDigits, Option.bind_eq_bind, Option.bind_some]
  dsimp only
  rw [digitsValue_toDigits (by decide) (by decide)]
  simp only [List.isEmpty_nil, Bool.true_and]

theorem inIntegerRange_iff {n : Int} :
    inIntegerRange n = true ↔ -0x8000000000000000 ≤ n ∧ n < 0x8000000000000000 := by
  simp [inIntegerRange]

/-- The digits of a number are read as that number, if it is below `2^63`. -/
theorem scalar_toDigits (n : Nat) {following : List Token} (ends : EndsNumber following) :
    scalar (.word (Nat.toDigits 10 n)) following =
      if n < 0x8000000000000000 then some (.integer n, 0) else none := by
  rw [(isDecimal_toDigits n).scalar_eq ends, decimalInteger_of_split (splitMinus_toDigits n)]
  simp only [Bool.false_eq_true, if_false, inIntegerRange_iff]
  by_cases small : n < 0x8000000000000000
  · rw [if_pos small, if_pos (by omega)]
    rfl
  · rw [if_neg small, if_neg (by omega)]
    rfl

/-- Behind a minus sign they are read as the negative number, if it is `-2^63` or above. -/
theorem scalar_minus_toDigits (n : Nat) {following : List Token} (ends : EndsNumber following) :
    scalar (.word ('-' :: Nat.toDigits 10 n)) following =
      if n ≤ 0x8000000000000000 then some (.integer (-n), 0) else none := by
  rw [(isDecimal_minus n).scalar_eq ends, decimalInteger_of_split rfl]
  simp only [if_true, inIntegerRange_iff]
  by_cases small : n ≤ 0x8000000000000000
  · rw [if_pos small, if_pos (by omega)]
    rfl
  · rw [if_neg small, if_neg (by omega)]
    rfl

end WordFields.Toml
