import WordFields.Toml.Section

/-!
# Tables of tables without repetition

The pairs above all headers and the tables `[outer.name]`, for names that differ, make one table:
the pairs, and behind them the entry `outer` with one closed table for each name.
-/

set_option autoImplicit false

namespace WordFields.Toml

/-- The entry of a table that is there only if something belongs into it. -/
def entryUnlessEmpty (key : String) (kind : TableKind) :
    List (String × Node) → List (String × Node)
  | [] => []
  | first :: rest => [(key, .table kind (first :: rest))]

namespace Section

/-- Pairs whose keys have one part each. -/
def pairStatements (pairs : List (String × Node)) : List Statement :=
  pairs.map fun e => .pair [e.1] e.2

/-- The table `[outer.name]` with its pairs. -/
def tableStatements (outer : String) (e : String × List (String × Node)) : List Statement :=
  .header ⟨[outer, e.1], false⟩ :: pairStatements e.2

def ofTable (outer : String) (e : String × List (String × Node)) : Section :=
  ⟨[outer, e.1], false, e.2⟩

/-- The section of a table as seen from inside the outer one. -/
def named (e : String × List (String × Node)) : Section := ⟨[e.1], false, e.2⟩

def namedEntry (e : String × List (String × Node)) : String × Node := (e.1, .table .closed e.2)

theorem collect_pairs (current : Section) (pairs : List (String × Node)) (rest : List Statement) :
    collect current (pairStatements pairs ++ rest) =
      collect { current with entries := current.entries ++ pairs } rest := by
  induction pairs generalizing current with
  | nil => rw [pairStatements, List.map_nil, List.nil_append, List.append_nil]
  | cons e pairs ih =>
    have inserted : insertPath e.2 [e.1] current.entries = some (current.entries ++ [e]) := rfl
    rw [pairStatements, List.map_cons, List.cons_append, collect, inserted, Option.bind_eq_bind,
      Option.bind_some]
    refine (ih _).trans ?_
    rw [List.append_assoc, List.singleton_append]

/-- A header with the pairs below it. -/
def statements (s : Section) : List Statement :=
  .header ⟨s.path, s.array⟩ :: pairStatements s.entries

theorem collect_sections (current : Section) (sections : List Section) :
    collect current (sections.flatMap statements) = some (current :: sections) := by
  induction sections generalizing current with
  | nil => rfl
  | cons s sections ih =>
    rw [List.flatMap_cons, statements, List.cons_append, collect, collect_pairs, List.nil_append,
      ih]
    rfl

/-- A header ends the section before it, so sections behind other statements are collected alone. -/
theorem collect_behind {current : Section} {sts : List Statement} {collected : List Section}
    (isCollected : collect current sts = some collected) (sections : List Section) :
    collect current (sts ++ sections.flatMap statements) = some (collected ++ sections) := by
  induction sts generalizing current collected with
  | nil =>
    cases isCollected
    exact collect_sections current sections
  | cons st sts ih =>
    cases st with
    | header header =>
      obtain ⟨others, areOthers, same⟩ := Option.bind_eq_some_iff.1 isCollected
      cases same
      rw [List.cons_append, collect, ih areOthers]
      rfl
    | pair path node =>
      obtain ⟨entries, inserted, isCollected⟩ := Option.bind_eq_some_iff.1 isCollected
      rw [List.cons_append, collect, inserted, Option.bind_eq_bind, Option.bind_some]
      exact ih isCollected

theorem collect_tables (outer : String) (tables : List (String × List (String × Node)))
    (current : Section) :
    collect current (tables.flatMap (tableStatements outer)) =
      some (current :: tables.map (ofTable outer)) := by
  rw [← collect_sections, List.flatMap_map]
  rfl

/-- With pairs above the headers, every section is kept. -/
theorem ofStatements_eq {sts : List Statement} {pairs : List (String × Node)}
    (nonempty : pairs ≠ []) {sections : List Section}
    (collected : collect ⟨[], false, []⟩ sts = some (⟨[], false, pairs⟩ :: sections))
    (below : ∀ s ∈ sections, s.path ≠ []) :
    ofStatements sts = some (⟨[], false, pairs⟩ :: sections) := by
  rw [ofStatements, collected, Option.bind_eq_bind, Option.bind_some, List.filter_eq_self.2]
  intro s mem
  rcases List.mem_cons.1 mem with rfl | later
  · simp [nonempty]
  · simp [below s later]

theorem ofStatements_pairs {pairs : List (String × Node)} (nonempty : pairs ≠ [])
    {rest : List Statement} {sections : List Section}
    (collected : collect ⟨[], false, pairs⟩ rest = some (⟨[], false, pairs⟩ :: sections))
    (below : ∀ s ∈ sections, s.path ≠ []) :
    ofStatements (pairStatements pairs ++ rest) = some (⟨[], false, pairs⟩ :: sections) := by
  refine ofStatements_eq nonempty ?_ below
  rw [collect_pairs, List.nil_append, collected]

theorem table_entries (entries : List (String × Node)) :
    table none [⟨[], false, entries⟩] = ⟨.closed, entries⟩ := by
  simp [table]

/-- A text of pairs alone spells a table of them. -/
theorem ofStatements_only_pairs (pairs : List (String × Node)) :
    (do
      let sections ← ofStatements (pairStatements pairs)
      some (table none sections)) = some ⟨.closed, pairs⟩ := by
  cases pairs with
  | nil => simp [ofStatements, pairStatements, collect, table]
  | cons first rest =>
    have collected :
        collect ⟨[], false, first :: rest⟩ [] = some [⟨[], false, first :: rest⟩] := rfl
    have sections := ofStatements_pairs (by simp) collected (by simp)
    rw [List.append_nil] at sections
    rw [sections, Option.bind_eq_bind, Option.bind_some, table_entries]

theorem inside_named {name : String} {tables : List (String × List (String × Node))}
    (other : ∀ e ∈ tables, e.1 ≠ name) : inside name (tables.map named) = [] := by
  rw [inside, List.filterMap_eq_nil_iff]
  intro s mem
  obtain ⟨e, inTables, rfl⟩ := List.mem_map.1 mem
  simp [below, named, other e inTables]

theorem outside_named {name : String} {tables : List (String × List (String × Node))}
    (other : ∀ e ∈ tables, e.1 ≠ name) : outside name (tables.map named) = tables.map named := by
  rw [outside, List.filter_eq_self]
  intro s mem
  obtain ⟨e, inTables, rfl⟩ := List.mem_map.1 mem
  simp [below, named, other e inTables]

/-- Tables with names of their own: the guard is never met, since it is one of the names before. -/
theorem table_named {tables : List (String × List (String × Node))}
    (distinct : tables.Pairwise fun a b => a.1 ≠ b.1) {guard : Option (List String)}
    (fresh : ∀ e ∈ tables, guard ≠ some [e.1]) :
    table guard (tables.map named) = ⟨.closed, tables.map namedEntry⟩ := by
  induction tables generalizing guard with
  | nil => simp [table]
  | cons e tables ih =>
    obtain ⟨apart, distinctRest⟩ := List.pairwise_cons.1 distinct
    have other : ∀ f ∈ tables, f.1 ≠ e.1 := fun f mem => (apart f mem).symm
    have freshRest : ∀ f ∈ tables, some (guarded [e.1] guard) ≠ some [f.1] := by
      intro f mem same
      cases guard with
      | none =>
        injection same with same
        injection same with same _
        exact apart f mem same
      | some path =>
        rw [guarded] at same
        split at same
        · injection same with same
          injection same with same _
          exact apart f mem same
        · exact fresh f (List.mem_cons_of_mem _ mem) same
    have alone : table none [⟨[], false, e.2⟩] = ⟨.closed, e.2⟩ := table_entries e.2
    rw [List.map_cons, List.map_cons, named, table, if_neg (fresh e List.mem_cons_self),
      inside_named other, outside_named other, ih distinctRest freshRest]
    simp only [startsElement, Bool.false_and, Bool.false_eq_true, if_false, alone]
    rfl

theorem inside_ofTable (outer : String) (tables : List (String × List (String × Node))) :
    inside outer (tables.map (ofTable outer)) = tables.map named := by
  rw [inside, List.filterMap_map, ← List.filterMap_eq_map]
  congr 1
  funext e
  simp [below, ofTable, named]

theorem outside_ofTable (outer : String) (tables : List (String × List (String × Node))) :
    outside outer (tables.map (ofTable outer)) = [] := by
  rw [outside, List.filter_eq_nil_iff]
  intro s mem
  obtain ⟨e, _, rfl⟩ := List.mem_map.1 mem
  simp [below, ofTable]

/-- The table of pairs and tables `[name]`. -/
theorem table_pairs_named (pairs : List (String × Node))
    {tables : List (String × List (String × Node))}
    (distinct : tables.Pairwise fun a b => a.1 ≠ b.1) :
    table none (⟨[], false, pairs⟩ :: tables.map named) =
      ⟨.closed, pairs ++ tables.map namedEntry⟩ := by
  have others : table (some []) (tables.map named) = ⟨.closed, tables.map namedEntry⟩ :=
    table_named distinct fun _ _ same => by cases same
  rw [table, if_neg (by simp), others]

/-- The table of pairs, at least one table `[outer.name]`, and tables `[name]` behind them. -/
theorem table_outer (pairs : List (String × Node)) (outer : String)
    {tables others : List (String × List (String × Node))} (nonempty : tables ≠ [])
    (distinct : tables.Pairwise fun a b => a.1 ≠ b.1)
    (othersDistinct : others.Pairwise fun a b => a.1 ≠ b.1) (apart : ∀ e ∈ others, e.1 ≠ outer) :
    table none (⟨[], false, pairs⟩ :: (tables.map (ofTable outer) ++ others.map named)) =
      ⟨.closed,
        pairs ++ (outer, .table .closed (tables.map namedEntry)) :: others.map namedEntry⟩ := by
  obtain ⟨first, rest, rfl⟩ := List.exists_cons_of_ne_nil nonempty
  have inner : table none ((first :: rest).map named) =
      ⟨.closed, (first :: rest).map namedEntry⟩ :=
    table_named distinct fun _ _ same => by cases same
  have behind : table (some []) (others.map named) = ⟨.closed, others.map namedEntry⟩ :=
    table_named othersDistinct fun _ _ same => by cases same
  -- the path of the pairs is shorter than that of any table, so it stays the guard
  have guard : guarded [outer, first.1] (some []) = [] := rfl
  rw [table, if_neg (by simp), List.map_cons, List.cons_append, ofTable, table, if_neg (by simp),
    inside, outside, List.filterMap_append, List.filter_append, ← inside, ← inside, ← outside,
    ← outside, inside_ofTable, outside_ofTable, inside_named apart, outside_named apart,
    List.append_nil, List.nil_append, guard, behind]
  rw [List.map_cons, named] at inner
  simp only [startsElement, Bool.false_and, Bool.false_eq_true, if_false, inner]
  rfl

/-- What the statements of pairs and tables make: for no table, the pairs alone. -/
theorem ofStatements_tables {pairs : List (String × Node)} (nonempty : pairs ≠ [])
    (outer : String) {tables : List (String × List (String × Node))}
    (distinct : tables.Pairwise fun a b => a.1 ≠ b.1) :
    (do
      let sections ← ofStatements (pairStatements pairs ++ tables.flatMap (tableStatements outer))
      some (table none sections)) =
      some ⟨.closed, pairs ++ entryUnlessEmpty outer .closed (tables.map namedEntry)⟩ := by
  have below : ∀ s ∈ tables.map (ofTable outer), s.path ≠ [] := by
    intro s mem
    obtain ⟨e, _, rfl⟩ := List.mem_map.1 mem
    simp [ofTable]
  rw [ofStatements_pairs nonempty (collect_tables outer tables _) below, Option.bind_eq_bind,
    Option.bind_some]
  cases tables with
  | nil => rw [List.map_nil, table_entries, List.map_nil, entryUnlessEmpty, List.append_nil]
  | cons first rest =>
    have outermost := table_outer pairs outer (List.cons_ne_nil first rest) distinct .nil (by simp)
    rw [List.map_nil, List.append_nil] at outermost
    rw [outermost]
    rfl

/-- The table of pairs and one table `[name]` without entries. -/
theorem table_empty (pairs : List (String × Node)) (name : String) :
    table none [⟨[], false, pairs⟩, ⟨[name], false, []⟩] =
      ⟨.closed, pairs ++ [(name, .table .closed [])]⟩ :=
  table_pairs_named pairs (List.pairwise_singleton _ (name, []))

end Section

end WordFields.Toml
