import WordFields.Proofs.Layout.Checking
import WordFields.Proofs.Layout.Spelling
import WordFields.Proofs.Outcome
import WordFields.Proofs.Toml.Integers

/-!
# Every layout that can be made can be spelled

Positions have 64 bits, integers of a text have a sign too. The numbers of a layout that was read
from a text, validated or not, come from such integers; a layout that was built has a supported
width, and its fields end within it. So no operation makes a layout whose text could not be read.
-/

set_option autoImplicit false

namespace WordFields

open Toml

/-- A position that a text can hold. -/
def Position.Spellable (p : Position) : Prop := p.val < 0x8000000000000000

instance (p : Position) : Decidable p.Spellable :=
  inferInstanceAs (Decidable (p.val < 0x8000000000000000))

theorem Toml.Node.position_spellable {node : Node} (inRange : node.InRange) {p : Position}
    (read : node.position = .ok p) : p.Spellable := by
  cases inRange with
  | integer inRange =>
    simp only [inIntegerRange, Bool.and_eq_true, decide_eq_true_eq] at inRange
    unfold Node.position at read
    dsimp only at read
    split at read
    next =>
      cases read
      unfold Position.Spellable
      dsimp only
      omega
    next => cases read
  | _ => cases read

/-- A value that is there after a key was read is the one from before or the one that was read. -/
theorem Reading.once_eq_ok {α : Type} {key : String} {before after : Option α} {value : Reading α}
    (read : Reading.once key before value = .ok after) :
    ∃ a, value = .ok a ∧ after = some a := by
  cases before with
  | none =>
    cases value with
    | ok a =>
      cases read
      exact ⟨a, rfl, rfl⟩
    | error e => cases read
  | some a => cases read

theorem Reading.require_eq_ok {α : Type} {key : String} {value : Option α} {a : α}
    (read : Reading.require key value = .ok a) : value = some a := by
  cases value with
  | none => cases read
  | some b =>
    cases read
    rfl

/-- What is read of a text is read of its table, which has no integer out of range. -/
theorem Reading.ofText_eq_ok {α : Type} {ofTable : Table → Reading α} {text : String} {a : α}
    (read : Reading.ofText ofTable text = .ok a) :
    ∃ t : Table, EntriesInRange t.entries ∧ ofTable t = .ok a := by
  unfold Reading.ofText at read
  split at read
  next t isTable => exact ⟨t, ofText?_inRange isTable, read⟩
  next => cases read

/-- What every entry keeps holds of what is read of a table. -/
theorem Toml.Table.read_keeps {σ : Type} (holds : σ → Prop)
    {entry : σ → String → Node → Reading σ}
    (keeps : ∀ state key node next, holds state → node.InRange → entry state key node = .ok next →
      holds next)
    {t : Table} (inRange : EntriesInRange t.entries) {start final : σ} (first : holds start)
    (read : t.read start entry = .ok final) : holds final := by
  obtain ⟨last, folded, read⟩ := bind_eq_ok_iff.1 read
  split at read
  next => cases read
  next =>
    cases read
    refine foldlM_keeps (fun state e mem next before stepped => ?_) first folded
    exact keeps state e.1 e.2 next before (inRange e mem) stepped

def Field.Spellable (f : Field) : Prop := f.range.stop.Spellable

instance (f : Field) : Decidable f.Spellable := inferInstanceAs (Decidable f.range.stop.Spellable)

/-- The end of a range, if it is known. -/
def RangeDraft.Spellable (d : RangeDraft) : Prop := ∀ stop, d.stop = some stop → stop.Spellable

theorem RangeDraft.read_spellable {d next : RangeDraft} {key : String} {node : Node}
    (before : d.Spellable) (inRange : node.InRange) (read : d.read key node = .ok next) :
    next.Spellable := by
  unfold RangeDraft.read at read
  split at read
  next =>
    obtain ⟨start, _, same⟩ := bind_eq_ok_iff.1 read
    cases same
    exact before
  next =>
    obtain ⟨stop, isStop, same⟩ := bind_eq_ok_iff.1 read
    obtain ⟨p, isPosition, rfl⟩ := Reading.once_eq_ok isStop
    cases same
    intro stop isStop
    cases isStop
    exact Node.position_spellable inRange isPosition
  next =>
    obtain ⟨_, _, same⟩ := bind_eq_ok_iff.1 read
    cases same
    exact before

theorem FieldDraft.read_spellable {d next : FieldDraft} {key : String} {node : Node}
    (before : d.range.Spellable) (inRange : node.InRange) (read : d.read key node = .ok next) :
    next.range.Spellable := by
  unfold FieldDraft.read at read
  split at read
  next =>
    obtain ⟨signed, _, same⟩ := bind_eq_ok_iff.1 read
    cases same
    exact before
  next =>
    obtain ⟨range, isRange, same⟩ := bind_eq_ok_iff.1 read
    cases same
    exact RangeDraft.read_spellable before inRange isRange

theorem RangeDraft.finish_spellable {d : RangeDraft} (spellable : d.Spellable) {r : BitRange}
    (made : d.finish = .ok r) : r.stop.Spellable := by
  obtain ⟨start, _, made⟩ := bind_eq_ok_iff.1 made
  obtain ⟨stop, isStop, made⟩ := bind_eq_ok_iff.1 made
  rw [← (BitRange.readBounds_eq_ok_iff.1 made).2]
  exact spellable stop (Reading.require_eq_ok isStop)

theorem Field.ofTable_spellable {t : Table} (inRange : EntriesInRange t.entries) {f : Field}
    (read : ofTable t = .ok f) : f.Spellable := by
  obtain ⟨draft, isDraft, read⟩ := bind_eq_ok_iff.1 read
  have empty : FieldDraft.empty.range.Spellable := by
    intro stop known
    cases known
  have spellable : draft.range.Spellable :=
    Table.read_keeps (fun d : FieldDraft => d.range.Spellable)
      (fun _ _ _ _ before inRange read => FieldDraft.read_spellable before inRange read) inRange
      empty isDraft
  obtain ⟨range, isRange, same⟩ := bind_eq_ok_iff.1 read
  cases same
  exact RangeDraft.finish_spellable spellable isRange

theorem Field.ofItems_spellable {items : List Node} (inRange : ∀ node ∈ items, node.InRange)
    {f : Field} (read : ofItems items = .ok f) : f.Spellable := by
  unfold ofItems at read
  split at read
  next => cases read
  next =>
    obtain ⟨_, _, read⟩ := bind_eq_ok_iff.1 read
    cases read
  next start stop rest =>
    obtain ⟨first, _, read⟩ := bind_eq_ok_iff.1 read
    obtain ⟨last, isPosition, read⟩ := bind_eq_ok_iff.1 read
    have behind : ∀ signed : Bool,
        (if 3 < (start :: stop :: rest).length then .error (.tooLong (start :: stop :: rest).length)
        else do
          let range ← BitRange.readBounds first last
          .ok ⟨range, signed⟩ : Reading Field) = .ok f → f.Spellable := by
      intro signed read
      split at read
      next => cases read
      next =>
        obtain ⟨range, isRange, same⟩ := bind_eq_ok_iff.1 read
        cases same
        unfold Field.Spellable
        rw [← (BitRange.readBounds_eq_ok_iff.1 isRange).2]
        exact Node.position_spellable (inRange stop (by simp)) isPosition
    cases rest with
    | nil =>
      obtain ⟨signed, _, read⟩ := bind_eq_ok_iff.1 read
      exact behind signed read
    | cons flag rest =>
      obtain ⟨signed, _, read⟩ := bind_eq_ok_iff.1 read
      exact behind signed read

theorem Field.ofNode_spellable {node : Node} (inRange : node.InRange) {f : Field}
    (read : ofNode node = .ok f) : f.Spellable := by
  cases inRange with
  | array each => exact ofItems_spellable each read
  | @table kind entries each => exact ofTable_spellable (t := ⟨kind, entries⟩) each read
  | date spelling => exact ofTable_spellable (.cons (.text spelling) .nil) read
  | _ => cases read

namespace Layout

theorem fieldsOfTable_spellable {t : Table} (inRange : EntriesInRange t.entries)
    {fields : NameMap Field} (read : fieldsOfTable t = .ok fields) :
    ∀ e ∈ fields.entries, e.2.Spellable := by
  have empty : ∀ e ∈ (NameMap.empty : NameMap Field).entries, e.2.Spellable := by
    intro e mem
    cases mem
  refine Table.read_keeps (fun fields : NameMap Field => ∀ e ∈ fields.entries,
    e.2.Spellable) (fun state name node next before inRange read => ?_) inRange empty read
  obtain ⟨field, isField, same⟩ := bind_eq_ok_iff.1 read
  cases same
  intro e mem
  rcases NameMap.mem_insertEntry mem with rfl | old
  · exact Field.ofNode_spellable inRange isField
  · exact before e old

theorem fieldsOfNode_spellable {node : Node} (inRange : node.InRange) {fields : NameMap Field}
    (read : fieldsOfNode node = .ok fields) : ∀ e ∈ fields.entries, e.2.Spellable := by
  cases inRange with
  | @table kind entries each => exact fieldsOfTable_spellable (t := ⟨kind, entries⟩) each read
  | date spelling => exact fieldsOfTable_spellable (.cons (.text spelling) .nil) read
  | _ => cases read

/-- What is known of the layout can be spelled. -/
structure Draft.Spellable (d : Draft) : Prop where
  width : ∀ width, d.width = some width → width.Spellable
  fields : ∀ fields, d.fields = some fields → ∀ e ∈ fields.entries, e.2.Spellable

theorem Draft.read_spellable {d next : Draft} {key : String} {node : Node}
    (before : d.Spellable) (inRange : node.InRange) (read : d.read key node = .ok next) :
    next.Spellable := by
  unfold Draft.read at read
  split at read
  next =>
    obtain ⟨width, isWidth, same⟩ := bind_eq_ok_iff.1 read
    obtain ⟨p, isPosition, rfl⟩ := Reading.once_eq_ok isWidth
    cases same
    refine ⟨fun width isWidth => ?_, before.fields⟩
    cases isWidth
    exact Node.position_spellable inRange isPosition
  next =>
    obtain ⟨fields, areFields, same⟩ := bind_eq_ok_iff.1 read
    obtain ⟨found, areFound, rfl⟩ := Reading.once_eq_ok areFields
    cases same
    refine ⟨before.width, fun fields areFields => ?_⟩
    cases areFields
    exact fieldsOfNode_spellable inRange areFound
  next =>
    obtain ⟨_, _, same⟩ := bind_eq_ok_iff.1 read
    cases same
    exact before

theorem ofTable_spellable {t : Table} (inRange : EntriesInRange t.entries) {l : Layout}
    (read : ofTable t = .ok l) : l.Spellable := by
  obtain ⟨draft, isDraft, read⟩ := bind_eq_ok_iff.1 read
  have empty : Draft.empty.Spellable := by
    constructor
    · intro width known
      cases known
    · intro fields known
      cases known
  have spellable : draft.Spellable :=
    Table.read_keeps Draft.Spellable
      (fun _ _ _ _ before inRange read => Draft.read_spellable before inRange read) inRange empty
      isDraft
  obtain ⟨width, isWidth, same⟩ := bind_eq_ok_iff.1 read
  cases same
  refine ⟨spellable.width width (Reading.require_eq_ok isWidth), ?_⟩
  cases known : draft.fields with
  | none =>
    intro e mem
    cases mem
  | some fields => exact spellable.fields fields known

/-- Whatever is read from a text can be spelled in one. -/
theorem parse_spellable {text : String} {l : Layout} (read : parse text = .ok l) : l.Spellable := by
  obtain ⟨t, inRange, ofTable⟩ := Reading.ofText_eq_ok read
  exact ofTable_spellable inRange ofTable

/-- A valid layout has no position above 128. -/
theorem Valid.spellable {l : Layout} (valid : l.Valid) : l.Spellable := by
  have small : l.width.val ≤ 128 := by
    obtain ⟨s, _, same⟩ := List.mem_map.1 valid.supported
    rw [← same]
    exact s.bits_le
  refine ⟨by omega, fun e mem => ?_⟩
  have within : e.2.range.stop.val ≤ l.width.val := valid.within e mem
  omega

/-- The layouts that the operations and the readers of texts make. -/
inductive Made : Layout → Prop
  | ofWidth {width : Position} {l : Layout} (made : Layout.ofWidth width = .ok l) : Made l
  | insert {l grown : Layout} {name : String} {field : Field} (before : Made l)
      (made : l.insert name field = .ok grown) : Made grown
  | parse {text : String} {l : Layout} (made : Layout.parse text = .ok l) : Made l
  | parseValid {text : String} {l : Layout} (made : (Layout.parseValid text).value = .ok l) : Made l

theorem Made.spellable {l : Layout} (made : l.Made) : l.Spellable := by
  induction made with
  | ofWidth made => exact (valid_of_ofWidth made).spellable
  | insert before made ih =>
    obtain ⟨within, rfl⟩ := insert_eq_ok_iff.1 made
    refine ⟨ih.width, fun e mem => ?_⟩
    rcases NameMap.mem_insertEntry mem with rfl | old
    · exact Nat.lt_of_le_of_lt within ih.width
    · exact ih.stops e old
  | parse made => exact parse_spellable made
  | parseValid made => exact parse_spellable (parseValid_eq_ok_iff.1 made).1

end Layout

end WordFields
