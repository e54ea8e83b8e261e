import WordFields.Proofs.Layout.Forms
import WordFields.Proofs.Layout.GivenValues

/-!
# Which arrays make a field

The elements of an array are read by their places: start, end and perhaps the sign rule. The
earliest of these three at fault decides, then the number of elements, and only then whether start
is below end; elements behind the third are counted and not looked at.
-/

set_option autoImplicit false

namespace WordFields

open Toml

/-- The fault of the earliest value at fault in its place. Values behind the last place count for
nothing. -/
def firstWrong? : List Expected → List GivenValue → Option ReadError
  | expected :: places, value :: rest => (value.fault? expected).or (firstWrong? places rest)
  | _, _ => none

namespace Field

/-- What the first elements have to be. -/
def places : List Expected := [.position, .position, .flag]

/-- The elements that tell these bounds; the sign rule may be left out. -/
def listed (start stop : Position) (rule : Option Bool) : List GivenValue :=
  [.position start, .position stop] ++ (rule.map .flag).toList

theorem length_listed (start stop : Position) (rule : Option Bool) :
    2 ≤ (listed start stop rule).length ∧ (listed start stop rule).length ≤ 3 := by
  cases rule <;> simp [listed]

theorem listed_inj {start stop start' stop' : Position} {rule rule' : Option Bool}
    (same : listed start stop rule = listed start' stop' rule') :
    start = start' ∧ stop = stop' ∧ rule = rule' := by
  injection same with sameStart others
  injection others with sameStop sameRule
  refine ⟨GivenValue.position_injective sameStart, GivenValue.position_injective sameStop, ?_⟩
  cases rule with
  | none =>
    cases rule' with
    | none => rfl
    | some b => cases sameRule
  | some b =>
    cases rule' with
    | none => cases sameRule
    | some b' =>
      injection sameRule with sameFlag
      rw [GivenValue.flag_injective sameFlag]

end Field

/-- What elements without a fault come to: there may be too few or too many, or start is not below
end, or `make` is applied to the field that they tell. -/
structure TellField {α : Type} (elements : List GivenValue) (make : Field → α)
    (result : Reading α) : Prop where
  tooShort : elements.length < 2 → result = .error (.tooShort elements.length)
  tooLong : 3 < elements.length → result = .error (.tooLong elements.length)
  reversed : ∀ start stop rule, elements = Field.listed start stop rule → stop ≤ start →
    result = .error (.range (.reversed start stop))
  accepted : ∀ a, result = .ok a ↔ ∃ (r : BitRange) (rule : Option Bool),
    elements = Field.listed r.start r.stop rule ∧ make ⟨r, rule.getD false⟩ = a

namespace TellField

variable {α : Type} {elements : List GivenValue} {make : Field → α}

/-- Elements that tell no field end in an error. -/
theorem of_error {error : ReadError}
    (unlisted : ∀ start stop rule, elements ≠ Field.listed start stop rule)
    (short : elements.length < 2 → error = .tooShort elements.length)
    (long : 3 < elements.length → error = .tooLong elements.length) :
    TellField elements make (.error error) where
  tooShort isShort := by rw [short isShort]
  tooLong isLong := by rw [long isLong]
  reversed start stop rule isListed := absurd isListed (unlisted start stop rule)
  accepted := by
    intro a
    constructor
    · intro accepted
      cases accepted
    · rintro ⟨r, rule, isListed, -⟩
      exact absurd isListed (unlisted r.start r.stop rule)

theorem of_short (short : elements.length < 2) :
    TellField elements make (.error (.tooShort elements.length)) := by
  refine of_error ?_ (fun _ => rfl) (fun long => by omega)
  rintro start stop rule rfl
  have enough := (Field.length_listed start stop rule).1
  omega

theorem of_long (long : 3 < elements.length) :
    TellField elements make (.error (.tooLong elements.length)) := by
  refine of_error ?_ (fun short => by omega) (fun _ => rfl)
  rintro start stop rule rfl
  have most := (Field.length_listed start stop rule).2
  omega

theorem of_listed (start stop : Position) (rule : Option Bool) :
    TellField (Field.listed start stop rule) make
      (BitRange.readBounds start stop >>= fun r => .ok (make ⟨r, rule.getD false⟩)) where
  tooShort short := by
    have enough := (Field.length_listed start stop rule).1
    omega
  tooLong long := by
    have most := (Field.length_listed start stop rule).2
    omega
  reversed := by
    intro start' stop' rule' same reversed
    obtain ⟨rfl, rfl, rfl⟩ := Field.listed_inj same
    rw [BitRange.readBounds_reversed (Fin.not_lt.2 reversed), error_bind]
  accepted := by
    intro a
    constructor
    · intro accepted
      obtain ⟨r, isRange, made⟩ := bind_eq_ok_iff.1 accepted
      obtain ⟨rfl, rfl⟩ := BitRange.readBounds_eq_ok_iff.1 isRange
      cases made
      exact ⟨r, rule, rfl, rfl⟩
    · rintro ⟨r, rule', same, rfl⟩
      obtain ⟨rfl, rfl, rfl⟩ := Field.listed_inj same
      rw [BitRange.readBounds_eq, ok_bind]

end TellField

/-- The elements are read by their places until one is at fault, then counted and compared. -/
theorem Field.reads_elements {elements : List GivenValue}
    (spellable : ∀ v ∈ elements, v.Spellable) {α : Type} (make : Field → α) :
    Reading.FaultFirst (firstWrong? places elements) (TellField elements make)
      (ofItems (elements.map GivenValue.node) >>= fun f => .ok (make f)) := by
  -- the reader tells none, one, two and three elements apart from more than three
  match elements with
  | [] => exact .of_none (TellField.of_short (by simp))
  | [start] =>
    have isStart := GivenValue.readBy_position start (spellable start (by simp))
    rw [List.map_singleton, ofItems, bind_assoc]
    exact isStart.behind fun _ _ => .of_none (TellField.of_short (by simp))
  | [start, stop] =>
    have isStart := GivenValue.readBy_position start (spellable start (by simp))
    have isStop := GivenValue.readBy_position stop (spellable stop (by simp))
    have read : (ofItems [start.node, stop.node] >>= fun f => .ok (make f)) = (do
        let start ← start.node.position
        let stop ← stop.node.position
        let r ← BitRange.readBounds start stop
        .ok (make ⟨r, false⟩)) := by simp [ofItems]
    rw [List.map_cons, List.map_singleton, read]
    refine isStart.behind fun p isGiven => isStop.behind fun q isGivenToo => .of_none ?_
    subst isGiven isGivenToo
    exact TellField.of_listed p q none
  | [start, stop, rule] =>
    have isStart := GivenValue.readBy_position start (spellable start (by simp))
    have isStop := GivenValue.readBy_position stop (spellable stop (by simp))
    have isRule := GivenValue.readBy_flag rule (spellable rule (by simp))
    have read : (ofItems [start.node, stop.node, rule.node] >>= fun f => .ok (make f)) = (do
        let start ← start.node.position
        let stop ← stop.node.position
        let signed ← rule.node.flag
        let r ← BitRange.readBounds start stop
        .ok (make ⟨r, signed⟩)) := by simp [ofItems]
    rw [List.map_cons, List.map_cons, List.map_singleton, read]
    refine isStart.behind fun p isGiven => isStop.behind fun q isGivenToo =>
      isRule.behind fun b isGivenAlso => .of_none ?_
    subst isGiven isGivenToo isGivenAlso
    exact TellField.of_listed p q (some b)
  | start :: stop :: rule :: next :: others =>
    have isStart := GivenValue.readBy_position start (spellable start (by simp))
    have isStop := GivenValue.readBy_position stop (spellable stop (by simp))
    have isRule := GivenValue.readBy_flag rule (spellable rule (by simp))
    have read : (ofItems ((start :: stop :: rule :: next :: others).map GivenValue.node) >>=
        fun f => .ok (make f)) = (do
        let _ ← start.node.position
        let _ ← stop.node.position
        let _ ← rule.node.flag
        .error (.tooLong (start :: stop :: rule :: next :: others).length)) := by simp [ofItems]
    rw [read]
    exact isStart.behind fun _ _ => isStop.behind fun _ _ => isRule.behind fun _ _ =>
      .of_none (TellField.of_long (by simp))

namespace Layout

theorem fieldsOfTable_single {kind : TableKind} (unbroken : kind ≠ .repeated) (name : String)
    (node : Node) : fieldsOfTable ⟨kind, [(name, node)]⟩ = (do
      let field ← Field.ofNode node
      .ok (.ofList [(name, field)])) := by
  rw [fieldsOfTable, Table.read_unbroken unbroken, List.foldlM_cons]
  cases Field.ofNode node with
  | error e => rfl
  | ok field => rfl

/-- The text of a layout of 128 bits with the value of a field `a`. -/
def textWith (value : String) : String := "width = 128\nfields.a = " ++ value ++ "\n"

theorem textWith_eq (value : String) : textWith value = textOf 128
    (String.join ([()].map fun _ => pairLine (pathText ["fields", "a"]) value)) := by
  have width : pairLine "width" (Position.render 128) = "width = 128\n" := rfl
  have key : pathText ["fields", "a"] = "fields.a" := rfl
  unfold textWith textOf
  simp only [width, key]
  simp [pairLine, toString, ← String.toList_inj]

theorem parse_textWith {value : String} {node : Node} (isValue : ValueText value node) :
    parse (textWith value) = (do
      let field ← Field.ofNode node
      .ok ⟨128, .ofList [("a", field)]⟩) := by
  have small : (128 : Position).val < 0x8000000000000000 := by decide
  have read := parse_below small (fun _ : Unit => List.cons_ne_nil "a" [])
    (fun _ (_ : () ∈ [()]) => isValue) rfl
  rw [textWith_eq, read]
  refine (ofTable_fields _ _).trans ?_
  rw [fieldsOfNode, fieldsOfTable_single (by decide), bind_assoc]
  rfl

/-- The text `width = 128` followed by `fields.a = [elements]` is read as a layout exactly if the
elements are a start and an end in order, perhaps with a sign rule; the other outcomes have these
messages. -/
theorem elements_read_exactly {elements : List GivenValue}
    (spellable : ∀ v ∈ elements, v.Spellable) :
    Reading.FaultFirst (firstWrong? Field.places elements)
      (TellField elements fun f => (⟨128, .ofList [("a", f)]⟩ : Layout))
      (parse (textWith (arrayText (elements.map GivenValue.text)))) ∧
    ∀ (n : Nat) (start stop : Position),
      (ReadError.tooShort n).message =
        some s!"invalid length {n}, expected struct RawField with 3 elements" ∧
      (ReadError.tooLong n).message = some s!"invalid length {n}, expected 3 elements in sequence" ∧
      (ReadError.range (.reversed start stop)).message = some
        s!"invalid bit range {start.val}..{stop.val}, start must be below end" := by
  have isValue : ValueText (arrayText (elements.map GivenValue.text))
      (.array (elements.map GivenValue.node)) :=
    .array fun v mem => GivenValue.valueText (spellable v mem)
  refine ⟨?_, fun n start stop => ⟨?_, rfl, rfl⟩⟩
  · rw [parse_textWith isValue]
    exact Field.reads_elements spellable _
  · simp [ReadError.message, Expected.describe, toString, ← String.toList_inj]

/-- A rule that is no boolean is at fault before a fourth element is counted, a fourth element
before start and end are compared. -/
theorem arrays_of_one_field :
    (∃ l, parse "width = 128\nfields.a = [0, 8, true]\n" = .ok l ∧
      l.fields.entries = [("a", ⟨⟨0, 8, by decide⟩, true⟩)]) ∧
    parse "width = 128\nfields.a = [8, 0, 1, true]\n" = .error (.mismatch (.integer 1) .flag) ∧
    parse "width = 128\nfields.a = [8, 0, true, -9223372036854775808]\n" = .error (.tooLong 4) ∧
    parse "width = 128\nfields.a = [8, 8]\n" =
      .error (.range (.reversed 8 8)) := by
  let told : List GivenValue := [.integer 0, .integer 8, .flag true]
  let wrong : List GivenValue := [.integer 8, .integer 0, .integer 1, .flag true]
  let long : List GivenValue :=
    [.integer 8, .integer 0, .flag true, .integer (-0x8000000000000000)]
  let reversed : List GivenValue := [.integer 8, .integer 8]
  have spellable : ∀ v ∈ told ++ wrong ++ long ++ reversed, v.Spellable := by decide
  have ofTold := (elements_read_exactly fun v (mem : v ∈ told) => spellable v (by simp [mem])).1
  have ofWrong := (elements_read_exactly fun v (mem : v ∈ wrong) => spellable v (by simp [mem])).1
  have ofLong := (elements_read_exactly fun v (mem : v ∈ long) => spellable v (by simp [mem])).1
  have ofReversed :=
    (elements_read_exactly fun v (mem : v ∈ reversed) => spellable v (by simp [mem])).1
  have accepted : parse "width = 128\nfields.a = [0, 8, true]\n" =
      .ok ⟨128, .ofList [("a", ⟨⟨0, 8, by decide⟩, true⟩)]⟩ := by
    refine Eq.trans (congrArg parse ?_) (((ofTold.otherwise (by decide)).accepted _).2 ?_)
    · decide +kernel
    · exact ⟨⟨0, 8, by decide⟩, some true, by decide, rfl⟩
  refine ⟨⟨_, accepted, rfl⟩, ?_, ?_, ?_⟩
  · refine Eq.trans (congrArg parse ?_) (ofWrong.refused _ (by decide))
    decide +kernel
  · refine Eq.trans (congrArg parse ?_) ((ofLong.otherwise (by decide)).tooLong (by decide))
    decide +kernel
  · refine Eq.trans (congrArg parse ?_)
      ((ofReversed.otherwise (by decide)).reversed _ _ none (by decide) (by decide))
    decide +kernel

end Layout

end WordFields
