import WordFields.Proofs.Layout.Checking
import WordFields.Proofs.Layout.Forms

/-!
# Reading a text and building a layout agree

A text may give fields whose start is not below their end, give several fields of one name, and give
fields that the width does not allow. Faults of a field by itself are found in the order of the
text, before anything else. What is left is the map of the last field of each name; it is checked
like every layout, the width first and then the fields in the order of the bytes of their names.
Where that finds no fault, building the layout from the map in any order gives the same layout.
-/

set_option autoImplicit false

namespace WordFields

open Toml

/-- A field as a text gives it, its start perhaps not below its end. -/
structure GivenField where
  name : String
  start : Position
  stop : Position
  signed : Bool
  deriving DecidableEq, Repr

namespace GivenField

def field? (g : GivenField) : Option Field :=
  if h : g.start < g.stop then some ⟨⟨g.start, g.stop, h⟩, g.signed⟩ else none

/-- The field as the text has it, behind its name. -/
def value (g : GivenField) : String := Field.arrayText g.start g.stop (some g.signed)

def node (g : GivenField) : Node := .array (Field.items g.start g.stop (some g.signed))

/-- A text can hold the positions. -/
structure Spellable (g : GivenField) : Prop where
  start : g.start.val < 0x8000000000000000
  stop : g.stop.val < 0x8000000000000000

instance (g : GivenField) : Decidable g.Spellable :=
  decidable_of_iff (g.start.val < 0x8000000000000000 ∧ g.stop.val < 0x8000000000000000)
    ⟨fun ⟨start, stop⟩ => ⟨start, stop⟩, fun small => ⟨small.start, small.stop⟩⟩

theorem field?_forward {g : GivenField} (forward : g.start < g.stop) :
    g.field? = some ⟨⟨g.start, g.stop, forward⟩, g.signed⟩ := dif_pos forward

theorem ofNode_forward {g : GivenField} (forward : g.start < g.stop) :
    Field.ofNode g.node = .ok ⟨⟨g.start, g.stop, forward⟩, g.signed⟩ := by
  rw [node, Field.ofNode_array, BitRange.readBounds_eq ⟨g.start, g.stop, forward⟩]
  rfl

theorem ofNode_reversed {g : GivenField} (reversed : ¬ g.start < g.stop) :
    Field.ofNode g.node = .error (.range (.reversed g.start g.stop)) := by
  rw [node, Field.ofNode_array, BitRange.readBounds_reversed reversed]
  rfl

end GivenField

namespace Layout

/-- The layout of a width and fields that are added one after the other. -/
def build (width : Position) (fields : List (String × Field)) : Outcome LayoutError Layout := do
  let l ← ofWidth width
  fields.foldlM (fun l e => l.insert e.1 e.2) l

theorem insertAll_eq {width : Position} {fields : List (String × Field)}
    (within : ∀ e ∈ fields, e.2.range.stop ≤ width) (before : NameMap Field) :
    fields.foldlM (fun l e => Layout.insert l e.1 e.2) ⟨width, before⟩ =
      (.ok ⟨width, fields.foldl (fun m e => m.insert e.1 e.2) before⟩ :
        Outcome LayoutError Layout) := by
  induction fields generalizing before with
  | nil => rfl
  | cons e fields ih =>
    have inserted : Layout.insert ⟨width, before⟩ e.1 e.2 =
        .ok ⟨width, before.insert e.1 e.2⟩ :=
      insert_eq_ok_iff.2 ⟨within e List.mem_cons_self, rfl⟩
    rw [List.foldlM_cons, inserted, ok_bind]
    exact ih (fun f mem => within f (List.mem_cons_of_mem _ mem)) _

/-- Fields that fit make a layout of a supported width. -/
theorem build_eq {width : Position} (supported : width ∈ supportedWidths)
    {fields : List (String × Field)} (within : ∀ e ∈ fields, e.2.range.stop ≤ width) :
    build width fields = .ok ⟨width, .ofList fields⟩ := by
  rw [build, ofWidth_eq_ok_iff.2 ⟨supported, rfl⟩, ok_bind]
  exact insertAll_eq within .empty

/-- The text that gives the width and all fields in one inline table. -/
def givenText (width : Position) (given : List GivenField) : String :=
  textOf width (pairLine "fields" (tableText (given.map fun g => pairText [g.name] g.value)))

section

variable {width : Position} {given : List GivenField}

theorem parse_given (small : width.val < 0x8000000000000000)
    (spellable : ∀ g ∈ given, g.Spellable) :
    parse (givenText width given) = (do
      let fields ← fieldsOfTable ⟨.closed, given.map fun g => (g.name, g.node)⟩
      .ok ⟨width, fields⟩) := by
  have values : ∀ g ∈ given, ValueText g.value g.node := fun g mem =>
    Field.arrayText_valueText (spellable g mem).start (spellable g mem).stop _
  exact parse_value small (.table values)

/-- The first field in the text whose start is not below its end decides the error. -/
theorem parse_reversed (small : width.val < 0x8000000000000000)
    (spellable : ∀ g ∈ given, g.Spellable) {bad : GivenField}
    (first : (given.find? fun g => g.stop ≤ g.start) = some bad) :
    parse (givenText width given) = .error (.range (.reversed bad.start bad.stop)) := by
  obtain ⟨reversed, before, behind, rfl, passed⟩ := List.find?_eq_some_iff_append.1 first
  have reads : ∀ e ∈ before.map fun g => (g.name, g.node), ∃ f, Field.ofNode e.2 = .ok f := by
    intro e mem
    obtain ⟨g, inBefore, rfl⟩ := List.mem_map.1 mem
    have forward : g.start < g.stop := by simpa using passed g inBefore
    exact ⟨_, g.ofNode_forward forward⟩
  have failed : Field.ofNode (bad.name, bad.node).2 =
      .error (.range (.reversed bad.start bad.stop)) :=
    bad.ofNode_reversed (by simpa using reversed)
  rw [parse_given small spellable, List.map_append, List.map_cons,
    fieldsOfTable_error (by decide) reads failed, error_bind]

/-- Where every start is below its end, the last field of each name is read. -/
theorem parse_forward (small : width.val < 0x8000000000000000)
    (spellable : ∀ g ∈ given, g.Spellable) (forward : ∀ g ∈ given, g.start < g.stop) :
    ∃ m : NameMap Field, parse (givenText width given) = .ok ⟨width, m⟩ ∧
      ∀ name, m.get? name = (given.filter (·.name = name)).getLast?.bind GivenField.field? := by
  -- each given field is taken with the proof that its start is below its end: it is a field
  obtain ⟨known, rfl⟩ : ∃ known : List {g : GivenField // g.start < g.stop},
      known.map Subtype.val = given := ⟨_, List.attachWith_map_subtype_val forward⟩
  let field (g : {g : GivenField // g.start < g.stop}) : Field :=
    ⟨⟨g.val.start, g.val.stop, g.property⟩, g.val.signed⟩
  have closed : TableKind.closed ≠ .repeated := by decide
  have read :=
    fieldsOfTable_each (fun g : {g : GivenField // g.start < g.stop} => g.val.name) closed
      fun g (_ : g ∈ known) => GivenField.ofNode_forward g.property
  refine ⟨.ofList (known.map fun g => (g.val.name, field g)), ?_, fun name => ?_⟩
  · rw [parse_given small spellable, List.map_map]
    exact congrArg (· >>= fun fields => .ok (⟨width, fields⟩ : Layout)) read
  · have lastField : ∀ last : Option {g : GivenField // g.start < g.stop},
        (last.map fun g => (g.val.name, field g)).map Prod.snd =
          (last.map Subtype.val).bind GivenField.field? := by
      intro last
      cases last with
      | none => rfl
      | some g => exact (GivenField.field?_forward g.property).symm
    rw [NameMap.get?_ofList, NameMap.lookup_reverse, List.filter_map, List.filter_map,
      List.getLast?_map, List.getLast?_map]
    exact lastField _

/-- Reading a text that gives fields in one inline table: the first field whose start is not below
its end is refused with its message. Otherwise the last field of each name counts. Then an
unsupported width is refused, or else the field with the least name that ends past the width; and
if there is none, the layout is the one that is built from these fields in any order. -/
theorem reader_agrees_with_builder (small : width.val < 0x8000000000000000)
    (spellable : ∀ g ∈ given, g.Spellable) :
    (∀ bad, (given.find? fun g => g.stop ≤ g.start) = some bad →
      (parseValid (givenText width given)).value =
          .refuse (.unreadable (.range (.reversed bad.start bad.stop))) ∧
        (LayoutError.unreadable (.range (.reversed bad.start bad.stop))).message =
          some ("failed to deserialize layout: " ++
            (RangeError.reversed bad.start bad.stop).message) ∧
        (RangeError.reversed bad.start bad.stop).message =
          s!"invalid bit range {bad.start.val}..{bad.stop.val}, start must be below end") ∧
    ((∀ g ∈ given, g.start < g.stop) →
      ∃ m : NameMap Field,
        (∀ name, m.get? name = (given.filter (·.name = name)).getLast?.bind GivenField.field?) ∧
        (width ∉ supportedWidths →
          (parseValid (givenText width given)).value = .refuse (.unsupportedWidth width)) ∧
        (width ∈ supportedWidths → (∃ e ∈ m.entries, width < e.2.range.stop) →
          ∃ e ∈ m.entries, width < e.2.range.stop ∧
            (∀ f ∈ m.entries, width < f.2.range.stop → Text.bytes e.1 ≤ Text.bytes f.1) ∧
            (parseValid (givenText width given)).value =
              .refuse (.inField e.1 (.outside e.2.range.stop width))) ∧
        (width ∈ supportedWidths → (∀ e ∈ m.entries, e.2.range.stop ≤ width) →
          ∃ l, (parseValid (givenText width given)).value = .ok l ∧
            ∀ order : List (String × Field), order.Perm m.entries →
              build width order = .ok l)) := by
  constructor
  · intro bad first
    refine ⟨?_, rfl, rfl⟩
    rw [parseValid, parse_reversed small spellable first]
    rfl
  · intro forward
    obtain ⟨m, read, last⟩ := parse_forward small spellable forward
    have value := parseValid_of_parse read
    refine ⟨m, last, fun unsupported => ?_, fun supported past => ?_, fun supported within => ?_⟩
    · rw [value, verdict, checkWidth_of_unsupported unsupported]
      rfl
    · cases outside : firstOutside ⟨width, m⟩ with
      | none =>
        obtain ⟨e, mem, past⟩ := past
        exact absurd (firstOutside_eq_none_iff.1 outside e mem) (Fin.not_le.2 past)
      | some e =>
        obtain ⟨mem, pastWidth, least⟩ := firstOutside_least outside
        refine ⟨e, mem, pastWidth, least, ?_⟩
        rw [value, verdict, checkWidth_of_supported supported, ok_bind, outside]
        rfl
    · refine ⟨⟨width, m⟩, ?_, fun order shuffled => ?_⟩
      · rw [value, verdict, checkWidth_of_supported supported, ok_bind,
          firstOutside_eq_none_iff.2 within]
        rfl
      · rw [build_eq supported fun e mem => within e (shuffled.mem_iff.1 mem),
          NameMap.ofList_of_perm shuffled]

end

/-- A field that a later one of its name replaces must still be read, and the error tells its
bounds; once it is read, only the later one has to fit. An unsupported width is refused whatever the
fields. -/
theorem replaced_field_is_read :
    (parseValid "width = 8\nfields = \x7ba = [4, 4, false], a = [0, 4, false]\x7d\n").value =
        .refuse (.unreadable (.range (.reversed ⟨4, by decide⟩ ⟨4, by decide⟩))) ∧
      (LayoutError.unreadable (.range (.reversed ⟨4, by decide⟩ ⟨4, by decide⟩))).message =
        some "failed to deserialize layout: invalid bit range 4..4, start must be below end" ∧
      (∃ l, (parseValid ("width = 8\nfields = \x7ba = [4, 9, false], \"é.\" = [0, 8, true], " ++
        "a = [0, 4, false]\x7d\n")).value = .ok l) ∧
      (parseValid "width = 12\nfields = \x7ba = [4, 9, false]\x7d\n").value =
        .refuse (.unsupportedWidth ⟨12, by decide⟩) := by
  have eight : (⟨8, by decide⟩ : Position).val < 0x8000000000000000 := by decide
  have twelve : (⟨12, by decide⟩ : Position).val < 0x8000000000000000 := by decide
  let good : GivenField := ⟨"a", ⟨0, by decide⟩, ⟨4, by decide⟩, false⟩
  let empty : GivenField := ⟨"a", ⟨4, by decide⟩, ⟨4, by decide⟩, false⟩
  let long : GivenField := ⟨"a", ⟨4, by decide⟩, ⟨9, by decide⟩, false⟩
  let other : GivenField := ⟨"é.", ⟨0, by decide⟩, ⟨8, by decide⟩, true⟩
  have emptyFirst : ∀ g ∈ [empty, good], g.Spellable := by decide
  have longFirst : ∀ g ∈ [long, other, good], g.Spellable := by decide
  have onlyLong : ∀ g ∈ [long], g.Spellable := by decide
  obtain ⟨refused, message, -⟩ := (reader_agrees_with_builder eight emptyFirst).1 empty rfl
  refine ⟨?_, ?_, ?_, ?_⟩
  · have text : givenText ⟨8, by decide⟩ [empty, good] =
        "width = 8\nfields = \x7ba = [4, 4, false], a = [0, 4, false]\x7d\n" := by decide +kernel
    rw [text] at refused
    exact refused
  · exact message.trans (by decide)
  · have text : givenText ⟨8, by decide⟩ [long, other, good] =
        "width = 8\nfields = \x7ba = [4, 9, false], \"é.\" = [0, 8, true], " ++
          "a = [0, 4, false]\x7d\n" := by decide +kernel
    obtain ⟨m, last, -, -, fits⟩ := (reader_agrees_with_builder eight longFirst).2 (by decide)
    have within : ∀ e ∈ m.entries, e.2.range.stop ≤ ⟨8, by decide⟩ := by
      rintro ⟨name, field⟩ mem
      have found := (last name).symm.trans (NameMap.get?_eq_some_iff.2 mem)
      by_cases isA : "a" = name
      · subst isA
        cases found
        decide
      · by_cases isOther : "é." = name
        · subst isOther
          cases found
          decide
        · simp [long, other, good, isA, isOther] at found
    obtain ⟨l, read, -⟩ := fits (by decide) within
    rw [text] at read
    exact ⟨l, read⟩
  · have text : givenText ⟨12, by decide⟩ [long] =
        "width = 12\nfields = \x7ba = [4, 9, false]\x7d\n" := by decide +kernel
    obtain ⟨m, -, unsupported, -, -⟩ := (reader_agrees_with_builder twelve onlyLong).2 (by decide)
    have refused := unsupported (by decide)
    rwa [text] at refused

end Layout

end WordFields
