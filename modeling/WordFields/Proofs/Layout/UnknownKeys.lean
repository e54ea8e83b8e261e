import WordFields.Proofs.Layout.FieldLines
import WordFields.Proofs.Layout.RoundTrip
import WordFields.Proofs.Toml.ReadValues
import WordFields.Proofs.Toml.WholeLines

/-!
# Unknown keys have no effect on a layout

Between the lines of a layout's text other lines `key = value` may stand, as long as the key is not
one that is looked for there, and other tables may follow. What is read is the same layout, with the
same records. The own lines of the text make the same sections as before, each with entries added
whose keys are ignored; a header that is not the layout's own opens no table of a field.
-/

set_option autoImplicit false

namespace WordFields

open Toml

/-- The entries are those of a table with others added, whose keys are ignored and whose values can
be walked through. -/
inductive Adds (ignored : String → Prop) : List (String × Node) → List (String × Node) → Prop
  | nil : Adds ignored [] []
  | own {own grown : List (String × Node)} (rest : Adds ignored own grown) (e : String × Node) :
      Adds ignored (own ++ [e]) (grown ++ [e])
  | foreign {own grown : List (String × Node)} (rest : Adds ignored own grown) {key : String}
      (isIgnored : ignored key) {node : Node} (intact : node.intact = true) :
      Adds ignored own (grown ++ [(key, node)])

/-- The reader passes over these keys. -/
def Ignores {σ : Type} (entry : σ → String → Node → Reading σ) (ignored : String → Prop) : Prop :=
  ∀ state key node, ignored key → node.intact = true → entry state key node = .ok state

namespace Adds

variable {ignored : String → Prop} {own grown : List (String × Node)}

/-- Added entries change nothing of what is read. -/
theorem foldlM_eq {σ : Type} {entry : σ → String → Node → Reading σ}
    (ignores : Ignores entry ignored) (adds : Adds ignored own grown) (start : σ) :
    grown.foldlM (fun state e => entry state e.1 e.2) start =
      own.foldlM (fun state e => entry state e.1 e.2) start := by
  induction adds with
  | nil => rfl
  | own _ e ih => rw [List.foldlM_append, List.foldlM_append, ih]
  | @foreign own grown _ key isIgnored node intact ih =>
    have passed : ∀ state, [(key, node)].foldlM (fun state e => entry state e.1 e.2) state =
        .ok state := by
      intro state
      rw [List.foldlM_cons, ignores state key node isIgnored intact]
      rfl
    rw [List.foldlM_append, ih]
    simp only [passed]
    exact bind_pure _

theorem read_eq {σ : Type} {entry : σ → String → Node → Reading σ} (ignores : Ignores entry ignored)
    (adds : Adds ignored own grown) {kind : TableKind} (unbroken : kind ≠ .repeated) (start : σ) :
    Table.read ⟨kind, grown⟩ start entry = Table.read ⟨kind, own⟩ start entry := by
  rw [Table.read_unbroken unbroken, Table.read_unbroken unbroken, adds.foldlM_eq ignores]

theorem ne_nil (adds : Adds ignored own grown) (nonempty : own ≠ []) : grown ≠ [] := by
  cases adds with
  | nil => exact absurd rfl nonempty
  | own => simp
  | foreign => simp

/-- Where no key is ignored, nothing is added. -/
theorem eq_of_none (adds : Adds ignored own grown) (none : ∀ key, ¬ ignored key) : grown = own := by
  induction adds with
  | nil => rfl
  | own _ e ih => rw [ih]
  | foreign _ isIgnored => exact absurd isIgnored (none _)

theorem append (adds : Adds ignored own grown) {others : List (String × Node)}
    (isIgnored : ∀ e ∈ others, ignored e.1) (intact : ∀ e ∈ others, e.2.intact = true) :
    Adds ignored own (grown ++ others) := by
  induction others generalizing grown with
  | nil => rwa [List.append_nil]
  | cons e others ih =>
    obtain ⟨key, node⟩ := e
    have first : Adds ignored own (grown ++ [(key, node)]) :=
      adds.foreign (isIgnored _ List.mem_cons_self) (intact _ List.mem_cons_self)
    have all := ih first (fun e mem => isIgnored e (List.mem_cons_of_mem _ mem))
      fun e mem => intact e (List.mem_cons_of_mem _ mem)
    rwa [List.append_assoc, List.singleton_append] at all

end Adds

theorem Toml.Node.ignore_of_intact {node : Node} (intact : node.intact = true) :
    node.ignore = .ok () := if_pos intact

/-- The keys that are not looked for below a header, or above all headers. Below the header of the
fields every key is the name of one. -/
def Unknown : List String → String → Prop
  | [], key => key ≠ "width" ∧ key ≠ "fields"
  | ["fields", _], key => key ≠ "start" ∧ key ≠ "end" ∧ key ≠ "signed"
  | _, _ => False

theorem FieldDraft.ignores (name : String) :
    Ignores FieldDraft.read (Unknown ["fields", name]) := by
  rintro draft key node ⟨noStart, noStop, noSigned⟩ intact
  rw [read_other draft noSigned,
    RangeDraft.read_other draft.range noStart noStop (Node.ignore_of_intact intact)]
  rfl

theorem Layout.Draft.ignores : Ignores Draft.read (Unknown []) := by
  rintro draft key node ⟨noWidth, noFields⟩ intact
  unfold read
  split
  next => exact absurd rfl noWidth
  next => exact absurd rfl noFields
  next =>
    rw [Node.ignore_of_intact intact]
    rfl

/-- A line of a layout's own text. -/
inductive OwnLine where
  /-- The line `key = value`, and what is read of the value. -/
  | entry (key value : String) (node : Node)
  | empty
  | header (path : List String)

namespace OwnLine

def text : OwnLine → String
  | entry key value _ => pairLine key value
  | empty => "\n"
  | header path => "[" ++ pathText path ++ "]\n"

def statements : OwnLine → List Statement
  | entry key _ node => [.pair [key] node]
  | empty => []
  | header path => [.header ⟨path, false⟩]

/-- The header that the lines behind this one stand below, where it stands below `path` itself. -/
def place (path : List String) : OwnLine → List String
  | header path => path
  | _ => path

end OwnLine

/-- The line `key = value` with a key that needs no quotes is read as the entry `key`. The value may
be of any kind, and go over several lines. -/
structure PairLine (key value : String) : Prop where
  bare : (!key.toList.isEmpty && key.toList.all isBare) = true
  reads : ∃ node, statementsOf? (pairLine key value) = some [.pair [key] node]

/-- The value is written as an integer of 64 bits, a boolean or a string, or as an array or an
inline table of such values. The keys of a table may be any, and repeat. -/
inductive Written : String → Prop
  | integer {n : Int} (spellable : (GivenValue.integer n).Spellable) : Written (toString n)
  | flag (b : Bool) : Written (toString b)
  | quoted (text : String) : Written (quotedText text)
  | array {items : List String} (each : ∀ v ∈ items, Written v) : Written (arrayText items)
  | table {members : List (String × String)} (each : ∀ m ∈ members, Written m.2) :
      Written (tableText (members.map fun m => pairText [m.1] m.2))

/-- The text has these lines, in their order, and between them lines with keys that are unknown
where they stand. -/
inductive Grown : List String → List OwnLine → String → Prop
  | done (path : List String) : Grown path [] ""
  | own {path : List String} (line : OwnLine) {lines : List OwnLine} {text : String}
      (rest : Grown (line.place path) lines text) : Grown path (line :: lines) (line.text ++ text)
  | foreign {path : List String} {key value : String} (isLine : PairLine key value)
      (unknown : Unknown path key) {lines : List OwnLine} {text : String}
      (rest : Grown path lines text) : Grown path lines (pairLine key value ++ text)

/-- Another table: its header and its lines. -/
def foreignText (t : String × List (String × String)) : String :=
  "[" ++ t.1 ++ "]\n" ++ String.join (t.2.map fun p => pairLine p.1 p.2)

/-- The tables have names of one part that need no quotes and are unknown, each another one. -/
structure ForeignTables (tables : List (String × List (String × String))) : Prop where
  bare : ∀ t ∈ tables, (!t.1.toList.isEmpty && t.1.toList.all isBare) = true
  unknown : ∀ t ∈ tables, Unknown [] t.1
  distinct : (tables.map Prod.fst).Nodup
  lines : ∀ t ∈ tables, ∀ p ∈ t.2, PairLine p.1 p.2

theorem Written.valueText {value : String} (written : Written value) :
    ∃ node, ValueText value node := by
  have : Nonempty Node := ⟨.boolean false⟩
  induction written with
  | integer spellable => exact ⟨_, GivenValue.integer_valueText spellable⟩
  | flag b => exact ⟨_, .flag b⟩
  | quoted text => exact ⟨_, .quoted text⟩
  | @array items each ih =>
    choose! node isValue using ih
    have value : ValueText (arrayText (items.map fun v => v)) (.array (items.map node)) :=
      .array isValue
    rw [List.map_id'] at value
    exact ⟨_, value⟩
  | table each ih =>
    choose! node isValue using ih
    exact ⟨_, .table isValue⟩

namespace PairLine

variable {key value : String}

theorem of_written (bare : (!key.toList.isEmpty && key.toList.all isBare) = true)
    (written : Written value) : PairLine key value := by
  obtain ⟨node, isValue⟩ := written.valueText
  exact ⟨bare, node, (Spells.bare bare isValue).readsAs.statementsOf?_eq⟩

theorem readsAs (isLine : PairLine key value) :
    ∃ node, node.intact = true ∧ ReadsAs (pairLine key value) [.pair [key] node] := by
  obtain ⟨node, read⟩ := isLine.reads
  refine ⟨node, ?_, ?_⟩
  · obtain ⟨tokens, _, areStatements⟩ := Option.bind_eq_some_iff.1 read
    exact statementsWithin_inherits Node.inherited_intact areStatements _ List.mem_cons_self
  · have written : pairLine key value = key ++ " = " ++ value ++ "\n" := by
      simp [pairLine, toString]
    have unmarked : dropMark (pairLine key value).toList = (pairLine key value).toList := by
      obtain ⟨nonempty, bare⟩ := plain_of_bare isLine.bare
      obtain ⟨c, rest, isKey⟩ := List.exists_cons_of_ne_nil nonempty
      rw [isKey] at bare
      have first := (firstChar_of_bare (bare c List.mem_cons_self) []).unmarked
      rw [written, String.toList_append, String.toList_append, String.toList_append, isKey]
      exact dropMark_cons (beq_eq_false_iff_ne.1 first) _
    rw [written] at unmarked read ⊢
    exact .of_statementsOf? unmarked read

end PairLine

/-- The sections have the same header, and entries are added. -/
structure GrownSection (own grown : Section) : Prop where
  path : grown.path = own.path
  array : grown.array = own.array
  entries : Adds (Unknown own.path) own.entries grown.entries

/-- The sections of the text are those of its own lines, grown. -/
theorem Grown.collects {path : List String} {lines : List OwnLine} {text : String}
    (grown : Grown path lines text) (spelled : ∀ line ∈ lines, Spells line.text line.statements) :
    ∃ sts, ReadsAs text sts ∧ ∀ own current, GrownSection own current → own.path = path →
      ∀ sections, Section.collect own (lines.flatMap OwnLine.statements) = some sections →
        ∃ others, Section.collect current sts = some others ∧
          List.Forall₂ GrownSection sections others := by
  induction grown with
  | done path =>
    refine ⟨[], .empty, fun own current grown _ sections collected => ?_⟩
    cases collected
    exact ⟨[current], rfl, .cons grown .nil⟩
  | @own path line lines text rest ih =>
    obtain ⟨sts, reads, collects⟩ := ih fun other mem => spelled other (List.mem_cons_of_mem _ mem)
    have first := (spelled line List.mem_cons_self).readsAs
    refine ⟨line.statements ++ sts, first.append reads, ?_⟩
    intro own current grown samePath sections collected
    rw [List.flatMap_cons] at collected
    cases line with
    | entry key value node =>
      exact collects { own with entries := own.entries ++ [(key, node)] }
        { current with entries := current.entries ++ [(key, node)] }
        ⟨grown.path, grown.array, grown.entries.own (key, node)⟩ samePath sections collected
    | empty => exact collects own current grown samePath sections collected
    | header path =>
      obtain ⟨later, areLater, same⟩ := Option.bind_eq_some_iff.1 collected
      cases same
      obtain ⟨others, areOthers, areGrown⟩ :=
        collects ⟨path, false, []⟩ ⟨path, false, []⟩ ⟨rfl, rfl, .nil⟩ rfl later areLater
      refine ⟨current :: others, ?_, .cons grown areGrown⟩
      rw [OwnLine.statements, List.singleton_append, Section.collect, areOthers]
      rfl
  | @foreign path key value isLine unknown lines text rest ih =>
    obtain ⟨sts, reads, collects⟩ := ih spelled
    obtain ⟨node, intact, first⟩ := isLine.readsAs
    refine ⟨[.pair [key] node] ++ sts, first.append reads, ?_⟩
    intro own current grown samePath sections collected
    have ignored : Unknown own.path key := by
      rw [samePath]
      exact unknown
    exact collects own { current with entries := current.entries ++ [(key, node)] }
      ⟨grown.path, grown.array, grown.entries.foreign ignored intact⟩ samePath sections collected

namespace Layout

/-- The lines of a field's table. -/
def tableLines (e : String × Field) : List OwnLine :=
  .header ["fields", e.1] :: e.2.keys.map fun k => .entry k.name (k.text e.2) (k.node e.2)

/-- The lines of all fields, an empty one before each table but the first. -/
def fieldLines : List (String × Field) → List OwnLine
  | [] => [.empty, .header ["fields"]]
  | first :: rest => tableLines first ++ rest.flatMap fun e => .empty :: tableLines e

/-- The lines of the layout's text. -/
def ownLines (l : Layout) : List OwnLine :=
  .entry "width" l.width.render (.integer l.width.val) :: fieldLines l.fields.entries

/-- The sections of the fields. -/
def fieldSections : List (String × Field) → List Section
  | [] => [Section.named ("fields", [])]
  | entries => entries.map fun e => Section.ofTable "fields" (e.1, (ToldField.written e).pairs)

theorem join_tableLines (e : String × Field) :
    String.join ((tableLines e).map OwnLine.text) = fieldTable e.1 e.2 := by
  rw [← ToldField.headed_written, tableLines, List.map_cons, String.join_cons, List.map_map]
  rfl

theorem join_fieldLines (first : String × Field) (rest : List (String × Field)) :
    String.join ((fieldLines (first :: rest)).map OwnLine.text) = fieldTables (first :: rest) := by
  have others : String.join ((rest.flatMap fun e => .empty :: tableLines e).map OwnLine.text) =
      String.join (rest.map fun e => "\n" ++ fieldTable e.1 e.2) := by
    induction rest with
    | nil => rfl
    | cons e rest ih =>
      rw [List.flatMap_cons, List.map_append, String.join_append, ih, List.map_cons,
        String.join_cons, join_tableLines, List.map_cons, String.join_cons]
      rfl
  rw [fieldLines, fieldTables, List.map_append, String.join_append, join_tableLines, others]

/-- The lines are those of the text. -/
theorem join_ownLines (l : Layout) : String.join (l.ownLines.map OwnLine.text) = l.render := by
  rw [ownLines, List.map_cons, String.join_cons, render]
  refine congrArg (pairLine "width" l.width.render ++ ·) ?_
  cases l.fields.entries with
  | nil =>
    have named : pathText ["fields"] = "fields" := pathText_bare (by decide)
    simp only [fieldLines, fieldTables, OwnLine.text, named, List.map_cons, List.map_nil,
      String.join_cons, String.join_nil]
    rfl
  | cons first rest => exact join_fieldLines first rest

theorem tableLines_oneLine (e : String × Field) : ∀ line ∈ tableLines e, OneLine line.text := by
  refine List.forall_mem_cons.2 ⟨header_oneLine _, fun line mem => ?_⟩
  obtain ⟨k, _, rfl⟩ := List.mem_map.1 mem
  refine pair_oneLine (plain_of_bare k.name_bare).2 ?_
  cases k with
  | start => exact e.2.range.start.render_plain.2
  | stop => exact e.2.range.stop.render_plain.2
  | signed => exact (ValueTokens.flag e.2.signed).plain _ List.mem_cons_self |>.2

theorem ownLines_oneLine (l : Layout) : ∀ line ∈ l.ownLines, OneLine line.text := by
  have empty : OneLine "\n" := ⟨"", rfl, List.not_mem_nil⟩
  have width : (Token.word "width".toList).Plain := plain_of_bare (by decide)
  refine List.forall_mem_cons.2 ⟨pair_oneLine width.2 l.width.render_plain.2, ?_⟩
  cases l.fields.entries with
  | nil =>
    exact List.forall_mem_cons.2 ⟨empty, List.forall_mem_singleton.2 (header_oneLine _)⟩
  | cons first rest =>
    refine List.forall_mem_append.2 ⟨tableLines_oneLine first, fun line mem => ?_⟩
    obtain ⟨e, _, inLines⟩ := List.mem_flatMap.1 mem
    rcases List.mem_cons.1 inLines with rfl | inTable
    · exact empty
    · exact tableLines_oneLine e line inTable

theorem tableLines_statements (e : String × Field) :
    (tableLines e).flatMap OwnLine.statements =
      (Section.ofTable "fields" (e.1, (ToldField.written e).pairs)).statements := by
  have pairs : (e.2.keys.map fun k => OwnLine.entry k.name (k.text e.2) (k.node e.2)).flatMap
      OwnLine.statements = Section.pairStatements (ToldField.written e).pairs := by
    rw [Section.pairStatements, ToldField.pairs, List.map_map, List.flatMap_map,
      List.map_eq_flatMap]
    rfl
  rw [tableLines, List.flatMap_cons, pairs]
  rfl

theorem fieldLines_statements (entries : List (String × Field)) :
    (fieldLines entries).flatMap OwnLine.statements =
      (fieldSections entries).flatMap Section.statements := by
  cases entries with
  | nil => rfl
  | cons first rest =>
    have others : (rest.flatMap fun e => .empty :: tableLines e).flatMap OwnLine.statements =
        rest.flatMap fun e =>
          (Section.ofTable "fields" (e.1, (ToldField.written e).pairs)).statements := by
      rw [List.flatMap_assoc]
      refine congrArg (rest.flatMap ·) (funext fun e => ?_)
      rw [← tableLines_statements]
      rfl
    have sections : fieldSections (first :: rest) = (first :: rest).map fun e =>
        Section.ofTable "fields" (e.1, (ToldField.written e).pairs) := rfl
    rw [fieldLines, List.flatMap_append, tableLines_statements, others, sections, List.flatMap_map,
      List.flatMap_cons]

theorem tableLines_spelled {e : String × Field} (small : e.2.range.stop.val < 0x8000000000000000) :
    ∀ line ∈ tableLines e, Spells line.text line.statements := by
  refine List.forall_mem_cons.2 ⟨Spells.header (by simp), fun line mem => ?_⟩
  obtain ⟨k, _, rfl⟩ := List.mem_map.1 mem
  exact Spells.bare k.name_bare (k.valueText small)

theorem ownLines_spelled {l : Layout} (spellable : l.Spellable) :
    ∀ line ∈ l.ownLines, Spells line.text line.statements := by
  have smallStops := spellable.stops
  refine List.forall_mem_cons.2 ⟨width_spells spellable.width, ?_⟩
  cases entries : l.fields.entries with
  | nil =>
    exact List.forall_mem_cons.2
      ⟨Spells.newline, List.forall_mem_singleton.2 (Spells.header (by simp))⟩
  | cons first rest =>
    rw [entries] at smallStops
    obtain ⟨firstSmall, restSmall⟩ := List.forall_mem_cons.1 smallStops
    refine List.forall_mem_append.2 ⟨tableLines_spelled firstSmall, fun line mem => ?_⟩
    obtain ⟨e, inRest, inLines⟩ := List.mem_flatMap.1 mem
    rcases List.mem_cons.1 inLines with rfl | inTable
    · exact Spells.newline
    · exact tableLines_spelled (restSmall e inRest) line inTable

theorem collect_ownLines (l : Layout) :
    Section.collect ⟨[], false, []⟩ (l.ownLines.flatMap OwnLine.statements) =
      some (⟨[], false, [("width", .integer l.width.val)]⟩ :: fieldSections l.fields.entries) := by
  rw [ownLines, List.flatMap_cons, fieldLines_statements]
  exact (Section.collect_pairs ⟨[], false, []⟩ [("width", .integer l.width.val)] _).trans
    (Section.collect_sections _ _)

/-- Sections that hold the fields' tables and more hold one for each field, with entries added. -/
theorem exists_grown_tables {entries : List (String × Field)} {sections : List Section}
    (grown : List.Forall₂ GrownSection
      (entries.map fun e => Section.ofTable "fields" (e.1, (ToldField.written e).pairs)) sections) :
    ∃ items : List ((String × Field) × List (String × Node)), items.map Prod.fst = entries ∧
      sections = items.map (fun i => Section.ofTable "fields" (i.1.1, i.2)) ∧
      ∀ i ∈ items, Adds (Unknown ["fields", i.1.1]) (ToldField.written i.1).pairs i.2 := by
  induction entries generalizing sections with
  | nil =>
    cases grown
    exact ⟨[], rfl, rfl, List.forall_mem_nil _⟩
  | cons e entries ih =>
    rw [List.map_cons] at grown
    cases grown with
    | @cons _ s _ _ first later =>
      obtain ⟨items, rfl, rfl, adds⟩ := ih later
      obtain ⟨path, array, found⟩ := s
      obtain ⟨rfl, rfl, added⟩ := first
      exact ⟨(e, found) :: items, rfl, rfl, List.forall_mem_cons.2 ⟨added, adds⟩⟩

/-- Below the header of no fields nothing is added. -/
theorem grown_no_fields {sections : List Section}
    (grown : List.Forall₂ GrownSection (fieldSections []) sections) :
    sections = [Section.named ("fields", [])] := by
  cases grown with
  | @cons _ s _ _ first later =>
    cases later
    obtain ⟨path, array, found⟩ := s
    obtain ⟨rfl, rfl, added⟩ := first
    have nothing : found = [] := added.eq_of_none fun _ unknown => unknown
    rw [nothing]
    rfl

/-- A field is read from its table as if nothing had been added. -/
theorem ofNode_grown {e : String × Field} {grown : List (String × Node)}
    (adds : Adds (Unknown ["fields", e.1]) (ToldField.written e).pairs grown) :
    Field.ofNode (.table .closed grown) = .ok e.2 := by
  have unbroken : TableKind.closed ≠ .repeated := by decide
  have read := Field.ofNode_told unbroken (ToldField.written e)
  rw [Field.ofNode, Field.ofTable] at read ⊢
  rw [adds.read_eq (FieldDraft.ignores e.1) unbroken]
  exact read

/-- The table of the text has the pairs above all headers, the fields, which are read as before, and
the other tables. -/
theorem table_grown (pairs : List (String × Node)) (fields : NameMap Field)
    {sections : List Section}
    (grown : List.Forall₂ GrownSection (fieldSections fields.entries) sections)
    {others : List (String × List (String × Node))}
    (distinct : others.Pairwise fun a b => a.1 ≠ b.1) (apart : ∀ e ∈ others, e.1 ≠ "fields") :
    (∀ s ∈ sections, s.path ≠ []) ∧
      ∃ node, Section.table none (⟨[], false, pairs⟩ :: (sections ++ others.map Section.named)) =
        ⟨.closed, pairs ++ ("fields", node) :: others.map Section.namedEntry⟩ ∧
        fieldsOfNode node = .ok fields := by
  have made : NameMap.ofList fields.entries = fields := NameMap.ofList_of_perm (.refl _)
  have names := fields.nodup_names
  cases entries : fields.entries with
  | nil =>
    rw [entries] at grown made
    cases grown_no_fields grown
    refine ⟨by simp [Section.named], .table .closed [], ?_, congrArg Except.ok made⟩
    exact Section.table_pairs_named pairs
      (List.pairwise_cons.2 ⟨fun e mem => (apart e mem).symm, distinct⟩)
  | cons first rest =>
    rw [entries] at grown made names
    obtain ⟨items, areFields, rfl, adds⟩ := exists_grown_tables grown
    rw [← areFields] at made names
    rw [List.map_map] at names
    have nonempty : items ≠ [] := by
      rintro rfl
      cases areFields
    have tablesApart : (items.map fun i => (i.1.1, i.2)).Pairwise fun a b => a.1 ≠ b.1 :=
      List.pairwise_map.2 (List.pairwise_map.1 names)
    have table := Section.table_outer pairs "fields" (mt List.map_eq_nil_iff.1 nonempty) tablesApart
      distinct apart
    have read := fieldsOfTable_each (fun i : (String × Field) × List (String × Node) => i.1.1)
      (by decide : TableKind.closed ≠ .repeated) fun i mem => ofNode_grown (adds i mem)
    rw [List.map_map, List.map_map] at table
    refine ⟨?_, _, table, read.trans (congrArg Except.ok made)⟩
    intro s mem
    obtain ⟨i, _, rfl⟩ := List.mem_map.1 mem
    exact List.cons_ne_nil _ _

/-- Other tables are read as sections of their own, with values that can be walked through. -/
theorem foreign_readsAs {tables : List (String × List (String × String))}
    (foreign : ForeignTables tables) :
    ∃ others : List (String × List (String × Node)), others.map Prod.fst = tables.map Prod.fst ∧
      (∀ e ∈ others, ∀ p ∈ e.2, p.2.intact = true) ∧
      ReadsAs (String.join (tables.map foreignText))
        ((others.map Section.named).flatMap Section.statements) := by
  have each : ∀ p : String × String, PairLine p.1 p.2 → ∃ node, node.intact = true ∧
      ReadsAs (pairLine p.1 p.2) [.pair [p.1] node] := fun p isLine => isLine.readsAs
  have : Nonempty Node := ⟨.boolean false⟩
  choose! node intact reads using each
  refine ⟨tables.map fun t => (t.1, t.2.map fun p => (p.1, node p)), ?_, ?_, ?_⟩
  · rw [List.map_map]
    rfl
  · intro e mem p inEntries
    obtain ⟨t, inTables, rfl⟩ := List.mem_map.1 mem
    obtain ⟨line, inLines, rfl⟩ := List.mem_map.1 inEntries
    exact intact line (foreign.lines t inTables line inLines)
  · rw [List.flatMap_map, List.flatMap_map]
    refine ReadsAs.join fun t inTables => ?_
    have header : ReadsAs ("[" ++ t.1 ++ "]\n") [.header ⟨[t.1], false⟩] := by
      have spells := Spells.header (List.cons_ne_nil t.1 [])
      rw [pathText_bare (foreign.bare t inTables)] at spells
      exact spells.readsAs
    have lines : ReadsAs (String.join (t.2.map fun p => pairLine p.1 p.2))
        (t.2.flatMap fun p => [.pair [p.1] (node p)]) :=
      ReadsAs.join fun p inLines => reads p (foreign.lines t inTables p inLines)
    rw [← List.map_eq_flatMap] at lines
    have statements : Section.pairStatements (t.2.map fun p => (p.1, node p)) =
        t.2.map fun p => .pair [p.1] (node p) := List.map_map
    rw [← statements] at lines
    exact header.append lines

/-- The layout is read if its width and its fields are, whatever is added. -/
theorem ofTable_grown {width : Position} {pairs others : List (String × Node)}
    (added : Adds (Unknown []) [("width", .integer width.val)] pairs) {node : Node}
    {fields : NameMap Field} (read : fieldsOfNode node = .ok fields)
    (unknown : ∀ e ∈ others, Unknown [] e.1) (intact : ∀ e ∈ others, e.2.intact = true) :
    ofTable ⟨.closed, pairs ++ ("fields", node) :: others⟩ = .ok ⟨width, fields⟩ := by
  have all : Adds (Unknown []) [("width", .integer width.val), ("fields", node)]
      (pairs ++ ("fields", node) :: others) := by
    have grown := (added.own ("fields", node)).append unknown intact
    rwa [List.append_assoc] at grown
  have own := ofTable_fields width node
  rw [read, ok_bind] at own
  rw [ofTable, all.read_eq Draft.ignores (by decide)]
  exact own

/-- A layout is read from every text that has its lines and others with unknown keys, with other
tables behind. -/
theorem parse_grown {l : Layout} (spellable : l.Spellable) {text : String}
    (grown : Grown [] l.ownLines text) {tables : List (String × List (String × String))}
    (foreign : ForeignTables tables) :
    parse (text ++ String.join (tables.map foreignText)) = .ok l := by
  obtain ⟨sts, reads, collects⟩ := grown.collects (ownLines_spelled spellable)
  obtain ⟨others, names, intact, readsTables⟩ := foreign_readsAs foreign
  obtain ⟨sections, areSections, areGrown⟩ :=
    collects ⟨[], false, []⟩ ⟨[], false, []⟩ ⟨rfl, rfl, .nil⟩ rfl _ (collect_ownLines l)
  have unknown : ∀ e ∈ others, Unknown [] e.1 := by
    intro e mem
    have isName : e.1 ∈ tables.map Prod.fst := names ▸ List.mem_map_of_mem mem
    obtain ⟨t, inTables, same⟩ := List.mem_map.1 isName
    exact same ▸ foreign.unknown t inTables
  have distinct : others.Pairwise fun a b => a.1 ≠ b.1 :=
    List.pairwise_map.1 (names ▸ foreign.distinct)
  cases areGrown with
  | @cons _ top _ fieldsGrown first later =>
    obtain ⟨path, array, pairs⟩ := top
    obtain ⟨rfl, rfl, added⟩ := first
    obtain ⟨below, node, table, readFields⟩ :=
      table_grown pairs l.fields later distinct fun e mem => (unknown e mem).2
    have kept : Section.ofStatements
        (sts ++ (others.map Section.named).flatMap Section.statements) =
        some (⟨[], false, pairs⟩ :: (fieldsGrown ++ others.map Section.named)) := by
      refine Section.ofStatements_eq (added.ne_nil (List.cons_ne_nil _ _))
        (Section.collect_behind areSections _) (List.forall_mem_append.2 ⟨below, ?_⟩)
      exact List.forall_mem_map.2 fun e _ => List.cons_ne_nil _ _
    rw [parse, Reading.ofText, (reads.append readsTables).ofText?_eq, kept, Option.bind_eq_bind,
      Option.bind_some, table]
    refine ofTable_grown added readFields (List.forall_mem_map.2 unknown) ?_
    exact List.forall_mem_map.2 fun e mem =>
      (Node.inherited_intact.table_iff (by decide)).2 (intact e mem)

/-- Unknown keys have no effect. Between the lines of a layout's text others may stand with keys
that are not looked for there, with any values and any number of times, and other tables may follow:
the same layout is read, and with validation the same outcome and the same records. -/
theorem unknown_keys_ignored {l : Layout} (spellable : l.Spellable) :
    (String.join (l.ownLines.map OwnLine.text) = l.render ∧
      ∀ line ∈ l.ownLines, OneLine line.text) ∧
    (∀ key value, (!key.toList.isEmpty && key.toList.all isBare) = true → Written value →
      PairLine key value) ∧
    ∀ text tables, Grown [] l.ownLines text → ForeignTables tables →
      parse (text ++ String.join (tables.map foreignText)) = .ok l ∧
      parse (text ++ String.join (tables.map foreignText)) = parse l.render ∧
      parseValid (text ++ String.join (tables.map foreignText)) = parseValid l.render := by
  refine ⟨⟨l.join_ownLines, l.ownLines_oneLine⟩, fun key value => PairLine.of_written, ?_⟩
  intro text tables grown foreign
  have read := parse_grown spellable grown foreign
  refine ⟨read, by rw [read, parse_render spellable], ?_⟩
  rw [parseValid_render spellable, parseValid, read]

/-- Around the lines of two fields that overlap stand nested values, a start above all headers, a
width and fields inside a field, an end given twice in another table. The layout is read, and the
overlap is warned about as before. -/
theorem overlap_told_among_other_lines :
    ∃ l : Layout, l.Spellable ∧ l.fields.names = ["a.b", "c"] ∧ l.accept.log ≠ [] ∧
      parseValid ("start = [\x7bx = 1, x = \"]\\n\"\x7d, -7]\nwidth = 8\nstart = true\n" ++
        "[fields.\"a.b\"]\nwidth = -7\nstart = 0\nwidth = -7\nend = 4\nfields = []\n\n" ++
        "[fields.c]\nstart = 2\nend = 6\nsigned = true\n[name]\nend = -7\nend = false\n") =
        l.accept := by
  let l : Layout :=
    ⟨8, ⟨[("a.b", ⟨⟨0, 4, by decide⟩, false⟩), ("c", ⟨⟨2, 6, by decide⟩, true⟩)], by decide⟩⟩
  have spellable : l.Spellable := ⟨by decide, by decide⟩
  obtain ⟨-, isLine, ignored⟩ := unknown_keys_ignored spellable
  have low : Written (toString (-7 : Int)) := .integer (by decide)
  have members : ∀ m ∈ [("x", toString (1 : Int)), ("x", quotedText "]\n")], Written m.2 :=
    List.forall_mem_cons.2 ⟨.integer (by decide), List.forall_mem_singleton.2 (.quoted _)⟩
  have nested : Written (arrayText [_, toString (-7 : Int)]) :=
    .array (List.forall_mem_cons.2 ⟨.table members, List.forall_mem_singleton.2 low⟩)
  have none : Written (arrayText []) := .array (List.forall_mem_nil _)
  have start : Unknown [] "start" := ⟨by decide, by decide⟩
  have width : Unknown ["fields", "a.b"] "width" := ⟨by decide, by decide, by decide⟩
  have fields : Unknown ["fields", "a.b"] "fields" := ⟨by decide, by decide, by decide⟩
  have startList := isLine "start" _ (by decide) nested
  have startFlag := isLine "start" _ (by decide) (.flag true)
  have lowWidth := isLine "width" _ (by decide) low
  have noFields := isLine "fields" _ (by decide) none
  have grown : Grown [] l.ownLines _ :=
    .foreign startList start <| .own _ <| .foreign startFlag start <| .own _ <|
    .foreign lowWidth width <| .own _ <| .foreign lowWidth width <| .own _ <|
    .foreign noFields fields <| .own _ <| .own _ <| .own _ <| .own _ <| .own _ <| .done _
  have foreign :
      ForeignTables [("name", [("end", toString (-7 : Int)), ("end", toString false)])] := by
    refine ⟨by decide, List.forall_mem_singleton.2 ⟨by decide, by decide⟩, by decide, ?_⟩
    refine List.forall_mem_singleton.2 (List.forall_mem_cons.2 ⟨isLine _ _ (by decide) low, ?_⟩)
    exact List.forall_mem_singleton.2 (isLine _ _ (by decide) (.flag false))
  refine ⟨l, spellable, rfl, by decide +kernel, ?_⟩
  refine Eq.trans (congrArg parseValid ?_)
    ((ignored _ _ grown foreign).2.2.trans (parseValid_render spellable))
  decide +kernel

end Layout

end WordFields
