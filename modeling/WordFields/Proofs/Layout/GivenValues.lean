import WordFields.Proofs.Layout.Spelling

/-!
# Integers and booleans where a position or a flag is expected

A signed integer of 64 bits is written in decimal and read back, from the lowest to the highest.
Where a position is expected, a negative one is at fault and every other one is that position; a
boolean is of the wrong kind there, as an integer is where a flag is expected. Where several values
are read, the first fault decides.
-/

set_option autoImplicit false

namespace WordFields

open Toml

/-- A value that a text gives for a start, an end or a sign rule. -/
inductive GivenValue where
  | integer (value : Int)
  | flag (value : Bool)
  deriving DecidableEq, Repr

namespace GivenValue

def text : GivenValue → String
  | .integer n => toString n
  | .flag b => toString b

def node : GivenValue → Node
  | .integer n => .integer n
  | .flag b => .boolean b

/-- An integer has 64 bits and a sign. -/
def Spellable : GivenValue → Prop
  | .integer n => -0x8000000000000000 ≤ n ∧ n < 0x8000000000000000
  | .flag _ => True

instance : (v : GivenValue) → Decidable v.Spellable
  | .integer _ => inferInstanceAs (Decidable (_ ∧ _))
  | .flag _ => inferInstanceAs (Decidable True)

/-- What is wrong with the value where `expected` has to stand. -/
def fault? : Expected → GivenValue → Option ReadError
  | .position, .integer n => if n < 0 then some (.notPosition n) else none
  | .flag, .flag _ => none
  | expected, value => some (.mismatch value.node.shape expected)

theorem integer_toList (n : Int) : (toString n).toList =
    if 0 ≤ n then Nat.toDigits 10 n.toNat else '-' :: Nat.toDigits 10 (-n).toNat := by
  have written : toString n = if 0 ≤ n then n.toNat.repr else "-" ++ (-n).toNat.repr :=
    Int.repr_eq_if
  rw [written]
  split <;> simp [Nat.repr]

/-- The decimal of an integer is read as that integer, down to the lowest of 64 bits. -/
theorem integer_valueText {n : Int} (spellable : (integer n).Spellable) :
    ValueText (toString n) (.integer n) := by
  obtain ⟨low, high⟩ := spellable
  -- in either case the digits are one word, of characters that need no quotes
  have word (decimal : IsDecimal (toString n).toList)
      (reads : ∀ following, EndsNumber following →
        scalar (.word (toString n).toList) following = some (.integer n, 0)) :
      ValueText (toString n) (.integer n) := by
    obtain ⟨first, rest, starts, -⟩ := decimal.starts
    have nonempty : (toString n).toList ≠ [] := starts ▸ List.cons_ne_nil first rest
    exact .word (.word ⟨nonempty, decimal.bare⟩ reads)
  have written := integer_toList n
  split at written
  next natural =>
    rw [written] at word
    refine word (isDecimal_toDigits _) fun following ends => ?_
    rw [scalar_toDigits _ ends, if_pos (by omega), Int.toNat_of_nonneg natural]
  next negative =>
    rw [written] at word
    refine word (isDecimal_minus _) fun following ends => ?_
    rw [scalar_minus_toDigits _ ends, if_pos (by omega), Int.toNat_of_nonneg (by omega),
      Int.neg_neg]

theorem valueText {v : GivenValue} (spellable : v.Spellable) : ValueText v.text v.node := by
  cases v with
  | integer n => exact integer_valueText spellable
  | flag b => exact .flag b

/-- No value given is a table that could be opened twice. -/
theorem ignore_node (v : GivenValue) : v.node.ignore = .ok () := by
  cases v with
  | integer n => rfl
  | flag b => rfl

end GivenValue

namespace Reading

/-- The fault decides: with one the reading ends in it, and without it in a good state. -/
inductive DecidedBy {σ : Type} (good : σ → Prop) : Option ReadError → Reading σ → Prop
  | fault (error : ReadError) : DecidedBy good (some error) (.error error)
  | taken {state : σ} (isGood : good state) : DecidedBy good none (.ok state)

namespace DecidedBy

variable {σ τ : Type} {good : σ → Prop} {goodNext : τ → Prop} {fault rest : Option ReadError}
  {result : Reading σ}

/-- Of two readings in sequence the first one's fault decides, then the second one's. -/
theorem bind {next : σ → Reading τ} (first : DecidedBy good fault result)
    (later : ∀ state, good state → DecidedBy goodNext rest (next state)) :
    DecidedBy goodNext (fault.or rest) (result >>= next) := by
  cases first with
  | fault error => exact .fault error
  | taken isGood => exact later _ isGood

theorem map {next : σ → τ} (first : DecidedBy good fault result)
    (later : ∀ state, good state → goodNext (next state)) :
    DecidedBy goodNext fault (result >>= fun state => .ok (next state)) := by
  have both : DecidedBy goodNext (fault.or none) (result >>= fun state => .ok (next state)) :=
    first.bind fun state isGood => .taken (later state isGood)
  rwa [Option.or_none] at both

end DecidedBy

/-- A fault decides, whatever else there is to say; without one the rest is said of the reading. -/
structure FaultFirst {α : Type} (fault : Option ReadError) (rest : Reading α → Prop)
    (result : Reading α) : Prop where
  refused : ∀ error, fault = some error → result = .error error
  otherwise : fault = none → rest result

section Sequence

variable {σ α : Type} {good : σ → Prop} {fault later : Option ReadError} {first : Reading σ}
  {rest : Reading α → Prop} {next : σ → Reading α}

theorem FaultFirst.of_none {result : Reading α} (told : rest result) :
    FaultFirst none rest result where
  refused _ isFault := nomatch isFault
  otherwise _ := told

/-- Reading goes on where no fault has decided yet. -/
theorem DecidedBy.behind (decided : DecidedBy good fault first)
    (told : ∀ state, good state → FaultFirst later rest (next state)) :
    FaultFirst (fault.or later) rest (first >>= next) := by
  cases decided with
  | fault error =>
    refine ⟨fun found isFault => ?_, fun faultless => ?_⟩
    · cases isFault
      rfl
    · cases faultless
  | taken isGood => exact told _ isGood

theorem DecidedBy.finish (decided : DecidedBy good fault first)
    (told : ∀ state, good state → rest (next state)) : FaultFirst fault rest (first >>= next) := by
  have last : FaultFirst (fault.or none) rest (first >>= next) :=
    decided.behind fun state isGood => .of_none (told state isGood)
  rwa [Option.or_none] at last

end Sequence

end Reading

namespace GivenValue

/-- What is given for a start or an end. -/
def position (p : Position) : GivenValue := .integer p.val

theorem position_injective : Function.Injective position := by
  intro p q same
  injection same with same
  exact Fin.ext (Int.ofNat.inj same)

theorem flag_injective : Function.Injective flag := fun _ _ same => flag.inj same

/-- The value is refused if it is at fault, and otherwise taken for what was given. -/
def ReadBy {α : Type} (expected : Expected) (given : α → GivenValue) (read : Node → Reading α) :
    Prop :=
  ∀ v : GivenValue, v.Spellable →
    Reading.DecidedBy (fun a => given a = v) (v.fault? expected) (read v.node)

/-- An integer of a text that is not negative is a position: integers end below the positions. -/
theorem readBy_position : ReadBy .position position Node.position := by
  intro v spellable
  cases v with
  | flag b => exact .fault _
  | integer n =>
    obtain ⟨low, high⟩ := spellable
    rw [node, fault?]
    split
    next negative =>
      have refused : (Node.integer n).position = .error (.notPosition n) := dif_neg (by omega)
      rw [refused]
      exact .fault _
    next natural =>
      obtain ⟨k, rfl⟩ := Int.eq_ofNat_of_zero_le (Int.not_lt.1 natural)
      have small : k < 0x10000000000000000 := by omega
      rw [Node.position_integer ⟨k, small⟩]
      exact .taken rfl

theorem readBy_flag : ReadBy .flag flag Node.flag := by
  intro v _
  cases v with
  | flag b => exact .taken rfl
  | integer n => exact .fault _

end GivenValue

end WordFields
