import WordFields.Proofs.Toml.ReadValues
import WordFields.Toml.Section

/-!
# Integers of a text stay in their range

Every integer that is read from a text has 64 bits and a sign, at any depth of its outermost table.
The readers of numbers check this; the readers of values, statements and sections only put together
what they have read.
-/

set_option autoImplicit false

namespace WordFields.Toml

/-- Every integer in the value has 64 bits and a sign. -/
inductive Node.InRange : Node → Prop
  | integer {n : Int} (inRange : inIntegerRange n = true) : InRange (.integer n)
  | float (x : Binary64) : InRange (.float x)
  | boolean (b : Bool) : InRange (.boolean b)
  | text (t : String) : InRange (.text t)
  | date (spelling : String) : InRange (.date spelling)
  | array {items : List Node} (each : ∀ node ∈ items, InRange node) : InRange (.array items)
  | table {kind : TableKind} {entries : List (String × Node)}
      (each : ∀ e ∈ entries, InRange e.2) : InRange (.table kind entries)

/-- Every integer in the entries has 64 bits and a sign. -/
def EntriesInRange (entries : List (String × Node)) : Prop := EachEntry Node.InRange entries

theorem EntriesInRange.nil : EntriesInRange [] := EachEntry.nil

theorem EntriesInRange.cons {key : String} {node : Node} {entries : List (String × Node)}
    (first : node.InRange) (rest : EntriesInRange entries) :
    EntriesInRange ((key, node) :: entries) :=
  EachEntry.cons first rest

theorem Node.inherited_inRange : Node.Inherited InRange where
  scalar isScalar := by
    cases isScalar with
    | integer inRange => exact .integer inRange
    | float x => exact .float x
    | boolean b => exact .boolean b
    | text t => exact .text t
    | date spelling => exact .date spelling
  array each := .array each
  table_iff _ := ⟨fun inRange => by cases inRange; assumption, .table⟩

namespace Section

theorem collect_inRange {sts : List Statement} (inRange : ∀ st ∈ sts, st.Has Node.InRange)
    {current : Section} (before : EntriesInRange current.entries) {sections : List Section}
    (collected : collect current sts = some sections) :
    ∀ s ∈ sections, EntriesInRange s.entries := by
  induction sts generalizing current sections with
  | nil =>
    cases collected
    exact List.forall_mem_cons.2 ⟨before, fun _ mem => nomatch mem⟩
  | cons st rest ih =>
    obtain ⟨first, later⟩ := List.forall_mem_cons.1 inRange
    cases st with
    | header header =>
      obtain ⟨others, areOthers, same⟩ := Option.bind_eq_some_iff.1 collected
      cases same
      exact List.forall_mem_cons.2 ⟨before, ih later .nil areOthers⟩
    | pair path node =>
      obtain ⟨grown, inserted, collected⟩ := Option.bind_eq_some_iff.1 collected
      exact ih later (insertPath_inherits Node.inherited_inRange first before inserted) collected

/-- The sections inside an entry hold the same pairs as before. -/
theorem inside_inRange {key : String} {sections : List Section}
    (inRange : ∀ s ∈ sections, EntriesInRange s.entries) :
    ∀ s ∈ inside key sections, EntriesInRange s.entries := by
  intro s mem
  obtain ⟨outer, inSections, found⟩ := List.mem_filterMap.1 mem
  have same : s.entries = outer.entries := by
    unfold below at found
    split at found
    next =>
      split at found
      next =>
        cases found
        rfl
      next => cases found
    next => cases found
  rw [same]
  exact inRange outer inSections

/-- Tables and arrays of tables only put sections together: the induction is the recursion of the
two functions. -/
theorem table_inRange (guard : Option (List String)) (sections : List Section)
    (inRange : ∀ s ∈ sections, EntriesInRange s.entries) :
    EntriesInRange (table guard sections).entries := by
  revert inRange
  refine table.induct
    (fun guard sections => (∀ s ∈ sections, EntriesInRange s.entries) →
      EntriesInRange (table guard sections).entries)
    (fun sections => (∀ s ∈ sections, EntriesInRange s.entries) →
      ∀ node ∈ elements sections, node.InRange)
    ?nothing ?reopened ?pairs ?repeated ?entry ?noElement ?element guard sections
  case nothing =>
    intro guard _
    rw [table]
    exact .nil
  case reopened =>
    intro guard array entries rest repeated _
    rw [table, if_pos repeated]
    exact .nil
  case pairs =>
    intro guard array entries rest notRepeated ih inRange
    obtain ⟨first, later⟩ := List.forall_mem_cons.1 inRange
    rw [table, if_neg notRepeated]
    exact first.append (ih later)
  case repeated =>
    intro key path array entries rest _
    rw [table, if_pos rfl]
    exact .nil
  case entry =>
    intro guard key path array entries rest notRepeated first group arrays tables others inRange
    obtain ⟨head, later⟩ := List.forall_mem_cons.1 inRange
    have groupInRange : ∀ s ∈ group, EntriesInRange s.entries :=
      List.forall_mem_cons.2 ⟨head, inside_inRange later⟩
    rw [table, if_neg notRepeated]
    refine .cons ?_ (others fun s mem => later s (List.mem_filter.1 mem).1)
    split
    · exact .array (arrays groupInRange)
    · exact .table (tables groupInRange)
  case noElement =>
    intro _ node mem
    rw [elements] at mem
    cases mem
  case element =>
    intro s rest inner others inRange node mem
    obtain ⟨head, later⟩ := List.forall_mem_cons.1 inRange
    have innerInRange := inner fun t mem => later t ((List.takeWhile_sublist _).subset mem)
    have othersInRange := others fun t mem => later t ((List.dropWhile_sublist _).subset mem)
    rw [elements] at mem
    rcases List.mem_cons.1 mem with rfl | inOthers
    · exact .table (head.append innerInRange)
    · exact othersInRange node inOthers

end Section

/-- Every integer of a text has 64 bits and a sign. -/
theorem ofText?_inRange {text : String} {t : Table} (read : Table.ofText? text = some t) :
    EntriesInRange t.entries := by
  obtain ⟨tokens, _, read⟩ := Option.bind_eq_some_iff.1 read
  obtain ⟨sts, areStatements, read⟩ := Option.bind_eq_some_iff.1 read
  obtain ⟨sections, areSections, same⟩ := Option.bind_eq_some_iff.1 read
  obtain ⟨all, collected, kept⟩ := Option.bind_eq_some_iff.1 areSections
  cases same
  cases kept
  have each := statementsWithin_inherits Node.inherited_inRange areStatements
  have inRange := Section.collect_inRange each .nil collected
  exact Section.table_inRange none _ fun s mem => inRange s (List.mem_filter.1 mem).1

end WordFields.Toml
