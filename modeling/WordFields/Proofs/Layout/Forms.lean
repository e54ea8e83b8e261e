import WordFields.Proofs.Layout.Spelling
import WordFields.Proofs.Toml.DottedKeys

/-!
# Every form of the fields makes the same layout

Fields may have tables with headers of their own, be members of one inline table, be told key by key
on lines of their own, or be arrays. However their lines are mixed and ordered, what is read is one
table with one entry for each field, from which the field is read. Since the names differ, the map
of the fields does not depend on the order.
-/

set_option autoImplicit false

namespace WordFields

open Toml

/-- A field written as an array; the sign rule may be left out. -/
def Field.arrayText (start stop : Position) (rule : Option Bool) : String :=
  Toml.arrayText ([start.render, stop.render] ++ (rule.map toString).toList)

theorem Field.arrayText_valueText {start stop : Position}
    (smallStart : start.val < 0x8000000000000000) (smallStop : stop.val < 0x8000000000000000)
    (rule : Option Bool) :
    ValueText (arrayText start stop rule) (.array (items start stop rule)) := by
  let bounds : List (String × Node) :=
    [(start.render, .integer start.val), (stop.render, .integer stop.val)]
  have both : ∀ item ∈ bounds, ValueText item.1 item.2 := by
    simp only [bounds, List.forall_mem_cons]
    exact ⟨.position smallStart, .position smallStop, by simp⟩
  cases rule with
  | none =>
    have all : ValueText (Toml.arrayText (bounds.map Prod.fst)) (.array (bounds.map Prod.snd)) :=
      .array both
    exact all
  | some signed =>
    let written := bounds ++ [(toString signed, .boolean signed)]
    have each : ∀ item ∈ written, ValueText item.1 item.2 :=
      List.forall_mem_append.2 ⟨both, by simpa using ValueText.flag signed⟩
    have all : ValueText (Toml.arrayText (written.map Prod.fst)) (.array (written.map Prod.snd)) :=
      .array each
    exact all

/-- A field under its name, with the sign rule as its array has it. -/
structure ArrayField where
  name : String
  field : Field
  rule : Option Bool
  told : rule.getD false = field.signed

namespace ArrayField

def named (a : ArrayField) : String × Field := (a.name, a.field)

def value (a : ArrayField) : String :=
  Field.arrayText a.field.range.start a.field.range.stop a.rule

def node (a : ArrayField) : Node :=
  .array (Field.items a.field.range.start a.field.range.stop a.rule)

theorem valueText {a : ArrayField} (small : a.field.range.stop.val < 0x8000000000000000) :
    ValueText a.value a.node :=
  Field.arrayText_valueText (Nat.lt_trans a.field.range.val_start_lt small) small a.rule

theorem ofNode_node (a : ArrayField) : Field.ofNode a.node = .ok a.field := by
  rw [node, Field.ofNode_array, BitRange.readBounds_eq, ok_bind, a.told]

end ArrayField

/-- The field as a member of a table. -/
def ToldField.inline (t : ToldField) : String :=
  tableText (t.keys.map fun k => pairText [k.name] (k.text t.field))

namespace Layout

/-- One line for one key of a field. -/
def dottedLine (line : (String × Field) × FieldKey) : String :=
  pairLine (pathText ["fields", line.1.1, line.2.name]) (line.2.text line.1.2)

/-- The texts that spell these fields behind the line of the width. -/
inductive FieldsText (fields : List (String × Field)) : String → Prop
  /-- A table with a header for each field. -/
  | headed {order : List ToldField} (all : (order.map ToldField.named).Perm fields) {gap : String}
      (between : gap = "" ∨ gap = "\n") : FieldsText fields (headedText gap order)
  /-- One inline table of inline tables. -/
  | inline {order : List ToldField} (all : (order.map ToldField.named).Perm fields) :
      FieldsText fields
        (pairLine "fields" (tableText (order.map fun t => pairText [t.name] t.inline)))
  /-- A line for each key of each field, in any order. -/
  | dotted {lines : List ((String × Field) × FieldKey)} (known : ∀ line ∈ lines, line.1 ∈ fields)
      (told : ∀ e ∈ fields, e.2.ToldBy (saidOf e lines)) :
      FieldsText fields (String.join (lines.map dottedLine))
  /-- An array on a line for each field. -/
  | arrays {order : List ArrayField} (all : (order.map ArrayField.named).Perm fields) :
      FieldsText fields
        (String.join (order.map fun a => pairLine (pathText ["fields", a.name]) a.value))

section

variable {width : Position} {fields : List (String × Field)}

/-- The fields under one key: reading its value decides. -/
theorem parse_value (small : width.val < 0x8000000000000000) {value : String} {node : Node}
    (isValue : ValueText value node) :
    parse (textOf width (pairLine "fields" value)) = (do
      let fields ← fieldsOfNode node
      .ok ⟨width, fields⟩) := by
  have line : Spells (pairLine "fields" value) (Section.pairStatements [("fields", node)]) :=
    Spells.bare (by decide) isValue
  have spells : Spells (textOf width (pairLine "fields" value))
      (Section.pairStatements [("width", .integer width.val), ("fields", node)]) :=
    (width_spells small).append line
  rw [parse, Reading.ofText, spells.ofText?_eq, Section.ofStatements_only_pairs]
  exact ofTable_fields width node

/-- Lines with keys below `fields`. -/
theorem parse_below (small : width.val < 0x8000000000000000) {ι : Type} {items : List ι}
    {path : ι → List String} {text : ι → String} {node : ι → Node} (paths : ∀ i, path i ≠ [])
    (values : ∀ i ∈ items, ValueText (text i) (node i)) {members : List (String × Node)}
    (inserted : insertAll (items.map fun i => (path i, node i)) [] = some members) :
    parse (textOf width
        (String.join (items.map fun i => pairLine (pathText ("fields" :: path i)) (text i)))) =
      ofTable ⟨.closed, [("width", .integer width.val)] ++
        entryUnlessEmpty "fields" .dotted members⟩ := by
  have lines : Spells
      (String.join (items.map fun i => pairLine (pathText ("fields" :: path i)) (text i)))
      ((items.map fun i => (path i, node i)).map fun line =>
        .pair ("fields" :: line.1) line.2) := by
    have each := Spells.join fun i mem =>
      Spells.pair (List.cons_ne_nil "fields" (path i)) (values i mem)
    rw [← List.map_eq_flatMap] at each
    rw [List.map_map]
    exact each
  have nonempty : ∀ line ∈ items.map fun i => (path i, node i), line.1 ≠ [] := by
    intro line mem
    obtain ⟨i, _, rfl⟩ := List.mem_map.1 mem
    exact paths i
  rw [parse, Reading.ofText, textOf, ((width_spells small).append lines).ofText?_eq,
    Section.ofStatements_below (by simp) (by simp) nonempty inserted]

theorem parse_inline (small : width.val < 0x8000000000000000) {order : List ToldField}
    (smallStops : ∀ t ∈ order, t.field.range.stop.val < 0x8000000000000000) :
    parse (textOf width
        (pairLine "fields" (tableText (order.map fun t => pairText [t.name] t.inline)))) =
      .ok ⟨width, .ofList (order.map ToldField.named)⟩ := by
  have inlines : ∀ t ∈ order, ValueText t.inline (.table .closed t.pairs) := fun t mem =>
    ValueText.table fun k _ => k.valueText (smallStops t mem)
  have closed : TableKind.closed ≠ .repeated := by decide
  have read := fieldsOfTable_each ToldField.name closed
    fun t (_ : t ∈ order) => Field.ofNode_told closed t
  rw [parse_value small (ValueText.table inlines), fieldsOfNode, read]
  rfl

theorem parse_arrays (small : width.val < 0x8000000000000000) {order : List ArrayField}
    (smallStops : ∀ a ∈ order, a.field.range.stop.val < 0x8000000000000000) :
    parse (textOf width
        (String.join (order.map fun a => pairLine (pathText ["fields", a.name]) a.value))) =
      .ok ⟨width, .ofList (order.map ArrayField.named)⟩ := by
  have values : ∀ a ∈ order, ValueText a.value a.node := fun a mem =>
    ArrayField.valueText (smallStops a mem)
  have inserted := insertAll_values order ArrayField.name ArrayField.node []
  rw [List.nil_append] at inserted
  have lines := parse_below small (fun a => List.cons_ne_nil (ArrayField.name a) []) values inserted
  rw [lines]
  exact ofTable_each ArrayField.name (by decide) (fun a _ => a.ofNode_node) width

theorem parse_dotted (small : width.val < 0x8000000000000000)
    (smallStops : ∀ e ∈ fields, e.2.range.stop.val < 0x8000000000000000)
    (distinct : (fields.map Prod.fst).Nodup) {lines : List ((String × Field) × FieldKey)}
    (known : ∀ line ∈ lines, line.1 ∈ fields) (told : ∀ e ∈ fields, e.2.ToldBy (saidOf e lines)) :
    ∃ order : List (String × Field), order.Perm fields ∧
      parse (textOf width (String.join (lines.map dottedLine))) = .ok ⟨width, .ofList order⟩ := by
  have inFields : ∀ e ∈ lines.map Prod.fst, e ∈ fields := by
    intro e mem
    obtain ⟨line, inLines, rfl⟩ := List.mem_map.1 mem
    exact known line inLines
  have apart : ∀ e ∈ lines.map Prod.fst, ∀ f ∈ lines.map Prod.fst, e.1 = f.1 → e = f :=
    fun e mem f memToo same =>
      List.inj_on_of_nodup_map distinct (inFields e mem) (inFields f memToo) same
  obtain ⟨order, groups, inserted⟩ :=
    insertAll_groups Prod.fst (fun e => FieldKey.entry e.2) lines apart
  have all : ∀ e, e ∈ order ↔ e ∈ fields := by
    intro e
    rw [groups.members]
    refine ⟨inFields e, fun mem => ?_⟩
    -- a field without lines would not have its start told
    by_contra absent
    have start := (told e mem).start
    rw [saidOf_absent absent] at start
    cases start
  have shuffled : order.Perm fields :=
    (List.perm_ext_iff_of_nodup groups.once (.of_map _ distinct)).2 all
  refine ⟨order, shuffled, ?_⟩
  have values : ∀ line ∈ lines, ValueText (line.2.text line.1.2) (line.2.node line.1.2) :=
    fun line mem => line.2.valueText (smallStops line.1 (known line mem))
  have read := parse_below small
    (fun line : (String × Field) × FieldKey => List.cons_ne_nil line.1.1 [line.2.name]) values
    inserted
  have dotted : TableKind.dotted ≠ .repeated := by decide
  have reads : ∀ e ∈ order,
      Field.ofNode (.table .dotted ((saidOf e lines).map (FieldKey.entry e.2))) = .ok e.2 :=
    fun e mem => Field.ofNode_told dotted ⟨e.1, e.2, saidOf e lines, told e ((all e).1 mem)⟩
  have layout := ofTable_each Prod.fst dotted reads width
  rw [List.map_id'] at layout
  exact read.trans layout

/-- What holds of all fields holds of each that is written. -/
theorem forall_written {ι : Type} {order : List ι} {named : ι → String × Field}
    (all : (order.map named).Perm fields) {holds : String × Field → Prop}
    (each : ∀ e ∈ fields, holds e) : ∀ i ∈ order, holds (named i) := fun _ mem =>
  each _ (all.mem_iff.1 (List.mem_map_of_mem mem))

/-- However fields with names of their own are written, the same layout is read: it has the given
width and these fields. -/
theorem every_form_reads_alike (small : width.val < 0x8000000000000000)
    (smallStops : ∀ e ∈ fields, e.2.range.stop.val < 0x8000000000000000)
    (distinct : (fields.map Prod.fst).Nodup) :
    ∃ l : Layout, l.width = width ∧ l.fields.entries.Perm fields ∧
      ∀ body, FieldsText fields body → parse (textOf width body) = .ok l := by
  refine ⟨⟨width, .ofList fields⟩, rfl, NameMap.entries_ofList distinct, fun body form => ?_⟩
  have sameMap : ∀ order : List (String × Field), order.Perm fields →
      NameMap.ofList order = NameMap.ofList fields := fun order all =>
    (NameMap.ofList_perm all.symm distinct).symm
  cases form with
  | @headed order all gap between =>
    have distinctOrder : (order.map ToldField.name).Nodup := by
      have names := (all.map Prod.fst).nodup_iff.2 distinct
      rwa [List.map_map] at names
    have blank : Spells gap [] := by
      rcases between with rfl | rfl
      · exact .empty
      · exact .newline
    rw [parse_headed small (forall_written all smallStops) distinctOrder blank, sameMap _ all]
  | inline all =>
    rw [parse_inline small (forall_written all smallStops), sameMap _ all]
  | dotted known told =>
    obtain ⟨order, all, read⟩ := parse_dotted small smallStops distinct known told
    rw [read, sameMap _ all]
  | arrays all =>
    rw [parse_arrays small (forall_written all smallStops), sameMap _ all]

end

/-- Two fields told by lines that are mixed, and by tables in another order that leave nothing out:
both texts are read as one layout. -/
theorem mixed_lines_read_as_tables :
    let plain : String × Field := ("b", ⟨⟨⟨0, by decide⟩, ⟨8, by decide⟩, by decide⟩, true⟩)
    let quoted : String × Field := ("\"a.", ⟨⟨⟨4, by decide⟩, ⟨9, by decide⟩, by decide⟩, false⟩)
    ∃ l : Layout, l.width = ⟨16, by decide⟩ ∧ l.fields.entries.Perm [plain, quoted] ∧
      parse ("width = 16\nfields.b.end = 8\nfields.\"\\\"a.\".start = 4\nfields.b.start = 0\n" ++
        "fields.\"\\\"a.\".end = 9\nfields.b.signed = true\n") = .ok l ∧
      parse ("width = 16\n[fields.\"\\\"a.\"]\nsigned = false\nend = 9\nstart = 4\n" ++
        "\n[fields.b]\nstart = 0\nsigned = true\nend = 8\n") = .ok l := by
  intro plain quoted
  have small : (⟨16, by decide⟩ : Position).val < 0x8000000000000000 := by decide
  have stops : ∀ e ∈ [plain, quoted], e.2.range.stop.val < 0x8000000000000000 := by decide
  obtain ⟨l, width, fields, read⟩ := every_form_reads_alike small stops (by decide)
  have mixed : FieldsText [plain, quoted] (String.join ([(plain, .stop), (quoted, .start),
      (plain, .start), (quoted, .stop), (plain, .signed)].map dottedLine)) :=
    .dotted (by decide) (by decide)
  have tables : FieldsText [plain, quoted] (headedText "\n"
      [⟨quoted.1, quoted.2, [.signed, .stop, .start], by decide⟩,
        ⟨plain.1, plain.2, [.start, .signed, .stop], by decide⟩]) :=
    .headed (by decide) (.inr rfl)
  refine ⟨l, width, fields, (congrArg parse ?_).trans (read _ mixed),
    (congrArg parse ?_).trans (read _ tables)⟩
  · decide +kernel
  · decide +kernel

end Layout

end WordFields
