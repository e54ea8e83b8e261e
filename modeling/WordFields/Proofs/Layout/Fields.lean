import WordFields.Layout.Reading
import WordFields.Proofs.NameMap
import WordFields.Proofs.Outcome
import WordFields.Proofs.Toml.Sections

/-!
# Fields are read from tables and arrays

The keys of a field's table may stand in any order, and the sign rule may be left out where it is
the default. What is known of the field while its table is read depends on the keys met so far, not
on their order. Fields that are read one after the other make the map of these fields; the first
that cannot be read decides the error.
-/

set_option autoImplicit false

namespace WordFields

open Toml

theorem Toml.Node.position_integer (p : Position) :
    (Node.integer p.val).position = .ok p := by
  have small : 0 ≤ (p.val : Int) ∧ (p.val : Int) < 0x10000000000000000 := by omega
  rw [Node.position, dif_pos small]
  rfl

theorem BitRange.readBounds_eq (r : BitRange) : readBounds r.start r.stop = .ok r :=
  dif_pos r.start_lt_stop

theorem BitRange.readBounds_reversed {start stop : Position} (reversed : ¬ start < stop) :
    readBounds start stop = .error (.range (.reversed start stop)) :=
  dif_neg reversed

theorem BitRange.readBounds_eq_ok_iff {start stop : Position} {r : BitRange} :
    readBounds start stop = .ok r ↔ start = r.start ∧ stop = r.stop := by
  constructor
  · intro read
    unfold readBounds at read
    split at read
    next =>
      cases read
      exact ⟨rfl, rfl⟩
    next => cases read
  · rintro ⟨rfl, rfl⟩
    exact readBounds_eq r

/-- A table that does not break off is at fault only where an entry is. -/
theorem Toml.Table.read_unbroken {σ : Type} {kind : TableKind} (unbroken : kind ≠ .repeated)
    (entries : List (String × Node)) (start : σ) (entry : σ → String → Node → Reading σ) :
    Table.read ⟨kind, entries⟩ start entry =
      entries.foldlM (fun state e => entry state e.1 e.2) start := by
  rw [Table.read]
  simp only [if_neg unbroken]
  exact bind_pure _

/-- A key of a field's table. -/
inductive FieldKey where
  | start | stop | signed
  deriving DecidableEq, Repr

namespace FieldKey

def name : FieldKey → String
  | .start => "start"
  | .stop => "end"
  | .signed => "signed"

def node (f : Field) : FieldKey → Node
  | .start => .integer f.range.start.val
  | .stop => .integer f.range.stop.val
  | .signed => .boolean f.signed

/-- The entry of a field's table under this key. -/
def entry (f : Field) (k : FieldKey) : String × Node := (k.name, k.node f)

end FieldKey

/-- The keys are enough to tell the field, and none of them is repeated. -/
structure Field.ToldBy (f : Field) (keys : List FieldKey) : Prop where
  once : keys.Nodup
  start : .start ∈ keys
  stop : .stop ∈ keys
  signed : .signed ∈ keys ∨ f.signed = false

instance (f : Field) (keys : List FieldKey) : Decidable (f.ToldBy keys) :=
  decidable_of_iff
    (keys.Nodup ∧ .start ∈ keys ∧ .stop ∈ keys ∧ (.signed ∈ keys ∨ f.signed = false))
    ⟨fun ⟨once, start, stop, signed⟩ => ⟨once, start, stop, signed⟩,
      fun told => ⟨told.once, told.start, told.stop, told.signed⟩⟩

/-- The keys that are written of a field. -/
def Field.keys (f : Field) : List FieldKey :=
  [.start, .stop] ++ if f.signed then [.signed] else []

theorem Field.toldBy_keys (f : Field) : f.ToldBy f.keys := by
  unfold Field.keys
  cases signed : f.signed with
  | false => exact ⟨by decide, by decide, by decide, .inr signed⟩
  | true => exact ⟨by decide, by decide, by decide, .inl (by decide)⟩

/-- A field under its name, told by some keys in some order. -/
structure ToldField where
  name : String
  field : Field
  keys : List FieldKey
  told : field.ToldBy keys

namespace ToldField

def named (t : ToldField) : String × Field := (t.name, t.field)

/-- The entries of the field's table. -/
def pairs (t : ToldField) : List (String × Node) := t.keys.map (FieldKey.entry t.field)

/-- The field as it is written. -/
def written (e : String × Field) : ToldField := ⟨e.1, e.2, e.2.keys, e.2.toldBy_keys⟩

end ToldField

namespace FieldDraft

/-- What is known of a field behind these keys. -/
def behind (f : Field) (keys : List FieldKey) : FieldDraft :=
  ⟨⟨if .start ∈ keys then some f.range.start else none,
    if .stop ∈ keys then some f.range.stop else none⟩,
    if .signed ∈ keys then some f.signed else none⟩

theorem read_fresh (f : Field) {keys : List FieldKey} {k : FieldKey} (fresh : k ∉ keys) :
    (behind f keys).read k.name (k.node f) = .ok (behind f (k :: keys)) := by
  cases k with
  | start =>
    simp only [FieldKey.name, FieldKey.node, FieldDraft.read, RangeDraft.read, behind, fresh,
      Node.position_integer, Reading.once]
    simp
  | stop =>
    simp only [FieldKey.name, FieldKey.node, FieldDraft.read, RangeDraft.read, behind, fresh,
      Node.position_integer, Reading.once]
    simp
  | signed =>
    simp only [FieldKey.name, FieldKey.node, FieldDraft.read, behind, fresh, Node.flag,
      Reading.once]
    simp

theorem read_entries (f : Field) {keys before : List FieldKey} (once : (keys ++ before).Nodup) :
    (keys.map (FieldKey.entry f)).foldlM (fun draft e => FieldDraft.read draft e.1 e.2)
      (behind f before) = .ok (behind f (keys.reverse ++ before)) := by
  -- the keys before are those that the draft knows, so each of the others comes to it fresh
  induction keys generalizing before with
  | nil => rfl
  | cons k keys ih =>
    have fresh : k ∉ before := fun mem =>
      (List.nodup_cons.1 once).1 (List.mem_append_right keys mem)
    have onceRest : (keys ++ k :: before).Nodup := List.nodup_middle.2 once
    rw [List.map_cons, List.foldlM_cons, FieldKey.entry, read_fresh f fresh, ok_bind, ih onceRest,
      List.reverse_cons, List.append_assoc, List.singleton_append]

theorem finish_behind {f : Field} {keys : List FieldKey} (told : f.ToldBy keys) :
    (behind f keys).finish = .ok f := by
  have rule : (if .signed ∈ keys then some f.signed else none).getD false = f.signed := by
    split
    next => rfl
    next leftOut => exact ((told.signed.resolve_left leftOut).symm)
  simp only [finish, RangeDraft.finish, behind, told.start, told.stop, if_true, Reading.require,
    ok_bind, BitRange.readBounds_eq, rule]

end FieldDraft

namespace Field

/-- A field is read from its table, whatever the order of the keys. -/
theorem ofNode_told {kind : TableKind} (unbroken : kind ≠ .repeated) (t : ToldField) :
    ofNode (.table kind t.pairs) = .ok t.field := by
  have once : (t.keys ++ []).Nodup := by simpa using t.told.once
  have reversed : t.field.ToldBy (t.keys.reverse ++ []) := by
    constructor <;> simp [t.told.once, t.told.start, t.told.stop, t.told.signed]
  have empty : FieldDraft.empty = FieldDraft.behind t.field [] := rfl
  rw [ofNode, ofTable, Table.read_unbroken unbroken, empty, ToldField.pairs,
    FieldDraft.read_entries t.field once, ok_bind, FieldDraft.finish_behind reversed]

/-- The items of a field written as an array: start, end, and perhaps the sign rule. -/
def items (start stop : Position) (signed : Option Bool) : List Node :=
  [.integer start.val, .integer stop.val] ++ (signed.map Node.boolean).toList

theorem ofNode_array (start stop : Position) (signed : Option Bool) :
    ofNode (.array (items start stop signed)) = (do
      let range ← BitRange.readBounds start stop
      .ok ⟨range, signed.getD false⟩) := by
  cases signed with
  | none => simp [ofNode, items, ofItems, Node.position_integer]
  | some signed => simp [ofNode, items, ofItems, Node.position_integer, Node.flag]

end Field

namespace Layout

section Each

variable {ι : Type} {items : List ι} (name : ι → String) {node : ι → Node} {field : ι → Field}

theorem readFields_each (reads : ∀ i ∈ items, Field.ofNode (node i) = .ok (field i))
    (fields : NameMap Field) :
    (items.map fun i => (name i, node i)).foldlM
      (fun (fields : NameMap Field) e => do
        let field ← Field.ofNode e.2
        .ok (fields.insert e.1 field)) fields =
      (.ok ((items.map fun i => (name i, field i)).foldl (fun m e => m.insert e.1 e.2) fields) :
        Reading (NameMap Field)) := by
  induction items generalizing fields with
  | nil => rfl
  | cons i items ih =>
    have others := ih fun j mem => reads j (List.mem_cons_of_mem _ mem)
    rw [List.map_cons, List.foldlM_cons, reads i List.mem_cons_self, ok_bind, ok_bind, others]
    rfl

/-- Entries that are read as fields make the map of these fields. -/
theorem fieldsOfTable_each {kind : TableKind} (unbroken : kind ≠ .repeated)
    (reads : ∀ i ∈ items, Field.ofNode (node i) = .ok (field i)) :
    fieldsOfTable ⟨kind, items.map fun i => (name i, node i)⟩ =
      .ok (.ofList (items.map fun i => (name i, field i))) := by
  rw [fieldsOfTable, Table.read_unbroken unbroken]
  exact readFields_each name reads .empty

end Each

theorem readFields_error {before after : List (String × Node)} {bad : String × Node}
    {error : ReadError} (reads : ∀ e ∈ before, ∃ f, Field.ofNode e.2 = .ok f)
    (failed : Field.ofNode bad.2 = .error error) (fields : NameMap Field) :
    (before ++ bad :: after).foldlM
      (fun (fields : NameMap Field) e => do
        let field ← Field.ofNode e.2
        .ok (fields.insert e.1 field)) fields = (.error error : Reading (NameMap Field)) := by
  induction before generalizing fields with
  | nil => rw [List.nil_append, List.foldlM_cons, failed, error_bind, error_bind]
  | cons e before ih =>
    obtain ⟨f, read⟩ := reads e List.mem_cons_self
    rw [List.cons_append, List.foldlM_cons, read, ok_bind, ok_bind]
    exact ih (fun other mem => reads other (List.mem_cons_of_mem _ mem)) _

/-- The first entry that is not read as a field decides the error, whatever comes behind it. -/
theorem fieldsOfTable_error {kind : TableKind} (unbroken : kind ≠ .repeated)
    {before after : List (String × Node)} {bad : String × Node} {error : ReadError}
    (reads : ∀ e ∈ before, ∃ f, Field.ofNode e.2 = .ok f)
    (failed : Field.ofNode bad.2 = .error error) :
    fieldsOfTable ⟨kind, before ++ bad :: after⟩ = .error error := by
  rw [fieldsOfTable, Table.read_unbroken unbroken]
  exact readFields_error reads failed .empty

/-- The table of a layout, where reading the fields decides. -/
theorem ofTable_fields (width : Position) (fields : Node) :
    ofTable ⟨.closed, [("width", .integer width.val), ("fields", fields)]⟩ = (do
      let fields ← fieldsOfNode fields
      .ok ⟨width, fields⟩) := by
  rw [ofTable, Table.read_unbroken (by decide)]
  cases read : fieldsOfNode fields with
  | error e => simp [Draft.read, Draft.empty, Reading.once, Node.position_integer, read]
  | ok fields =>
    simp [Draft.read, Draft.empty, Reading.once, Node.position_integer, read, Draft.finish,
      Reading.require]

theorem ofTable_width (width : Position) :
    ofTable ⟨.closed, [("width", .integer width.val)]⟩ = .ok ⟨width, .empty⟩ := by
  simp [ofTable, Table.read_unbroken, Draft.read, Draft.empty, Reading.once, Node.position_integer,
    Draft.finish, Reading.require]

/-- A layout whose fields are entries of one table, which is not there if there are no fields. -/
theorem ofTable_each {ι : Type} {items : List ι} (name : ι → String) {node : ι → Node}
    {field : ι → Field} {kind : TableKind} (unbroken : kind ≠ .repeated)
    (reads : ∀ i ∈ items, Field.ofNode (node i) = .ok (field i)) (width : Position) :
    ofTable ⟨.closed, [("width", .integer width.val)] ++
      entryUnlessEmpty "fields" kind (items.map fun i => (name i, node i))⟩ =
      .ok ⟨width, .ofList (items.map fun i => (name i, field i))⟩ := by
  cases items with
  | nil => exact ofTable_width width
  | cons first rest =>
    let members := Node.table kind ((first :: rest).map fun i => (name i, node i))
    have known : fieldsOfNode members = .ok _ := fieldsOfTable_each name unbroken reads
    have layout := ofTable_fields width members
    rw [known, ok_bind] at layout
    exact layout

end Layout

end WordFields
