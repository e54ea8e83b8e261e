import Mathlib.Data.List.Induction
import Mathlib.Data.List.Nodup
import WordFields.Proofs.Toml.Sections

/-!
# Dotted keys build one table

Lines whose keys start with the same part go into one table, wherever they stand. If their keys have
one more part, that table has the values in the order of the lines. If they have two more, it has a
table for each second part, with the values of its own lines in their order.
-/

set_option autoImplicit false

namespace WordFields.Toml

/-- Entries under other keys stay before the one that is extended. -/
theorem extendFirst_append {key : String}
    {grow : List (String × Node) → Option (List (String × Node))} {before : List (String × Node)}
    (other : ∀ e ∈ before, e.1 ≠ key) (rest : List (String × Node)) :
    extendFirst key grow (before ++ rest) = (extendFirst key grow rest).map (before ++ ·) := by
  induction before with
  | nil => simp
  | cons e before ih =>
    rw [List.cons_append, extendFirst.eq_def]
    dsimp only
    rw [if_neg (other e List.mem_cons_self), ih fun f mem => other f (List.mem_cons_of_mem _ mem)]
    cases extendFirst key grow rest <;> rfl

theorem extendFirst_start {key : String}
    {grow : List (String × Node) → Option (List (String × Node))} {grown : List (String × Node)}
    (grows : grow [] = some grown) :
    extendFirst key grow [] = some [(key, .table .dotted grown)] := by
  rw [extendFirst, grows]
  rfl

theorem extendFirst_found {key : String}
    {grow : List (String × Node) → Option (List (String × Node))}
    {entries grown : List (String × Node)} (grows : grow entries = some grown)
    (rest : List (String × Node)) :
    extendFirst key grow ((key, .table .dotted entries) :: rest) =
      some ((key, .table .dotted grown) :: rest) := by
  rw [extendFirst, if_pos rfl, grows]
  rfl

theorem extendFirst_ne_nil {key : String}
    {grow : List (String × Node) → Option (List (String × Node))}
    {entries grown : List (String × Node)} (extended : extendFirst key grow entries = some grown) :
    grown ≠ [] := by
  revert extended
  fun_cases extendFirst key grow entries <;> intro extended
  · obtain ⟨_, _, same⟩ := Option.bind_eq_some_iff.1 extended
    cases same
    exact List.cons_ne_nil _ _
  · obtain ⟨_, _, same⟩ := Option.bind_eq_some_iff.1 extended
    cases same
    exact List.cons_ne_nil _ _
  · cases extended
  · obtain ⟨_, _, same⟩ := Option.bind_eq_some_iff.1 extended
    cases same
    exact List.cons_ne_nil _ _

theorem insertPath_cons {path : List String} (nonempty : path ≠ []) (value : Node) (key : String)
    (entries : List (String × Node)) :
    insertPath value (key :: path) entries = extendFirst key (insertPath value path) entries := by
  cases path with
  | nil => exact absurd rfl nonempty
  | cons => rfl

/-- Adds values under dotted keys, one after the other. -/
def insertAll (lines : List (List String × Node)) (entries : List (String × Node)) :
    Option (List (String × Node)) :=
  lines.foldlM (fun entries line => insertPath line.2 line.1 entries) entries

theorem insertPath_ne_nil {value : Node} {path : List String} {entries grown : List (String × Node)}
    (inserted : insertPath value path entries = some grown) : grown ≠ [] := by
  match path with
  | [] => cases inserted
  | [key] =>
    cases inserted
    simp
  | key :: next :: path => exact extendFirst_ne_nil inserted

/-- A key below `outer` is added to the table of `outer`, which is started if it is not there. -/
theorem insertPath_below {outer : String} {pairs : List (String × Node)}
    (other : ∀ e ∈ pairs, e.1 ≠ outer) {path : List String} (nonempty : path ≠ []) {value : Node}
    {members grown : List (String × Node)} (inserted : insertPath value path members = some grown) :
    insertPath value (outer :: path) (pairs ++ entryUnlessEmpty outer .dotted members) =
      some (pairs ++ entryUnlessEmpty outer .dotted grown) := by
  rw [insertPath_cons nonempty, extendFirst_append other]
  obtain ⟨first, rest, rfl⟩ := List.exists_cons_of_ne_nil (insertPath_ne_nil inserted)
  cases members with
  | nil =>
    rw [entryUnlessEmpty, extendFirst_start inserted]
    rfl
  | cons =>
    rw [entryUnlessEmpty, extendFirst_found inserted]
    rfl

theorem insertAll_below {outer : String} {pairs : List (String × Node)}
    (other : ∀ e ∈ pairs, e.1 ≠ outer) {lines : List (List String × Node)}
    (nonempty : ∀ line ∈ lines, line.1 ≠ []) {members grown : List (String × Node)}
    (inserted : insertAll lines members = some grown) :
    insertAll (lines.map fun line => (outer :: line.1, line.2))
      (pairs ++ entryUnlessEmpty outer .dotted members) =
      some (pairs ++ entryUnlessEmpty outer .dotted grown) := by
  induction lines generalizing members with
  | nil =>
    cases inserted
    rfl
  | cons line lines ih =>
    rw [insertAll, List.foldlM_cons] at inserted
    obtain ⟨next, first, others⟩ := Option.bind_eq_some_iff.1 inserted
    rw [List.map_cons, insertAll, List.foldlM_cons,
      insertPath_below other (nonempty line List.mem_cons_self) first]
    exact ih (fun later mem => nonempty later (List.mem_cons_of_mem _ mem)) others

theorem Section.collect_inserted (current : Section) {lines : List (List String × Node)}
    {grown : List (String × Node)} (inserted : insertAll lines current.entries = some grown) :
    collect current (lines.map fun line => .pair line.1 line.2) =
      some [{ current with entries := grown }] := by
  induction lines generalizing current with
  | nil =>
    cases inserted
    rfl
  | cons line lines ih =>
    rw [insertAll, List.foldlM_cons] at inserted
    obtain ⟨next, first, others⟩ := Option.bind_eq_some_iff.1 inserted
    rw [List.map_cons, collect, first, Option.bind_eq_bind, Option.bind_some]
    exact ih { current with entries := next } others

/-- The table of a text without headers: some pairs, and lines with keys below `outer`. -/
theorem Section.ofStatements_below {pairs : List (String × Node)} (nonempty : pairs ≠ [])
    {outer : String} (other : ∀ e ∈ pairs, e.1 ≠ outer) {lines : List (List String × Node)}
    (paths : ∀ line ∈ lines, line.1 ≠ []) {members : List (String × Node)}
    (inserted : insertAll lines [] = some members) :
    (do
      let sections ← ofStatements
        (pairStatements pairs ++ lines.map fun line => .pair (outer :: line.1) line.2)
      some (table none sections)) =
      some ⟨.closed, pairs ++ entryUnlessEmpty outer .dotted members⟩ := by
  have below := insertAll_below other paths inserted
  rw [entryUnlessEmpty, List.append_nil] at below
  have collected : collect ⟨[], false, pairs⟩
      (lines.map fun line => .pair (outer :: line.1) line.2) =
        some [⟨[], false, pairs ++ entryUnlessEmpty outer .dotted members⟩] := by
    have all := collect_inserted ⟨[], false, pairs⟩ below
    rw [List.map_map] at all
    exact all
  have sections : ofStatements
      (pairStatements pairs ++ lines.map fun line => .pair (outer :: line.1) line.2) =
        some [⟨[], false, pairs ++ entryUnlessEmpty outer .dotted members⟩] := by
    rw [ofStatements, collect_pairs, List.nil_append, collected, Option.bind_eq_bind,
      Option.bind_some, List.filter_eq_self.2 (by simp [nonempty])]
  rw [sections, Option.bind_eq_bind, Option.bind_some, table_entries]

/-- Keys of one part are added at the end. -/
theorem insertAll_values {ι : Type} (items : List ι) (name : ι → String) (node : ι → Node)
    (before : List (String × Node)) :
    insertAll (items.map fun i => ([name i], node i)) before =
      some (before ++ items.map fun i => (name i, node i)) := by
  induction items generalizing before with
  | nil => simp [insertAll]
  | cons i items ih =>
    have inserted : insertPath (node i) [name i] before = some (before ++ [(name i, node i)]) := rfl
    rw [List.map_cons, insertAll, List.foldlM_cons, inserted, Option.bind_eq_bind, Option.bind_some]
    refine (ih _).trans ?_
    rw [List.append_assoc, List.singleton_append, List.map_cons]

section Groups

variable {γ κ : Type} [DecidableEq γ]

/-- What the lines say of `g`, in their order. -/
def saidOf (g : γ) (lines : List (γ × κ)) : List κ := (lines.filter (·.1 = g)).map Prod.snd

theorem saidOf_same (g : γ) (k : κ) (lines : List (γ × κ)) :
    saidOf g (lines ++ [(g, k)]) = saidOf g lines ++ [k] := by
  simp [saidOf]

theorem saidOf_other {g h : γ} (other : h ≠ g) (k : κ) (lines : List (γ × κ)) :
    saidOf h (lines ++ [(g, k)]) = saidOf h lines := by
  simp [saidOf, other.symm]

theorem saidOf_absent {g : γ} {lines : List (γ × κ)} (absent : g ∉ lines.map Prod.fst) :
    saidOf g lines = [] := by
  rw [saidOf, List.map_eq_nil_iff, List.filter_eq_nil_iff]
  intro line mem same
  exact absent (List.mem_map.2 ⟨line, mem, of_decide_eq_true same⟩)

variable (name : γ → String) (entry : γ → κ → String × Node)

/-- The table that the lines make of `g`. -/
def groupEntry (lines : List (γ × κ)) (g : γ) : String × Node :=
  (name g, .table .dotted ((saidOf g lines).map (entry g)))

/-- A line of `g` with a key of two parts. -/
def groupLine (line : γ × κ) : List String × Node :=
  ([name line.1, (entry line.1 line.2).1], (entry line.1 line.2).2)

/-- A line about `g` does not change what is made of the others. -/
theorem map_groupEntry_others {part : List γ} {g : γ} (others : ∀ h ∈ part, name h ≠ name g) (k : κ)
    (lines : List (γ × κ)) :
    part.map (groupEntry name entry (lines ++ [(g, k)])) =
      part.map (groupEntry name entry lines) := by
  refine List.map_congr_left fun h mem => ?_
  have other : h ≠ g := fun same => others h mem (congrArg name same)
  rw [groupEntry, groupEntry, saidOf_other other]

theorem insertPath_groupLine_append {before : List γ} {g : γ}
    (others : ∀ h ∈ before, name h ≠ name g) (k : κ) (lines : List (γ × κ))
    (rest : List (String × Node)) :
    insertPath (groupLine name entry (g, k)).2 (groupLine name entry (g, k)).1
        (before.map (groupEntry name entry lines) ++ rest) =
      (extendFirst (name g) (fun entries => some (entries ++ [entry g k])) rest).map
        (before.map (groupEntry name entry lines) ++ ·) := by
  refine extendFirst_append (fun e mem => ?_) rest
  obtain ⟨h, inBefore, rfl⟩ := List.mem_map.1 mem
  exact others h inBefore

/-- A line about `g` goes behind the others about it. -/
theorem insertPath_known {before behind : List γ} {g : γ}
    (othersBefore : ∀ h ∈ before, name h ≠ name g) (othersBehind : ∀ h ∈ behind, name h ≠ name g)
    (k : κ) (lines : List (γ × κ)) :
    insertPath (groupLine name entry (g, k)).2 (groupLine name entry (g, k)).1
        ((before ++ g :: behind).map (groupEntry name entry lines)) =
      some ((before ++ g :: behind).map (groupEntry name entry (lines ++ [(g, k)]))) := by
  have found : extendFirst (name g) (fun entries => some (entries ++ [entry g k]))
      ((g :: behind).map (groupEntry name entry lines)) =
      some ((g :: behind).map (groupEntry name entry (lines ++ [(g, k)]))) := by
    rw [List.map_cons, List.map_cons, map_groupEntry_others _ _ othersBehind, groupEntry,
      groupEntry, saidOf_same, List.map_append]
    refine extendFirst_found ?_ _
    rfl
  rw [List.map_append, insertPath_groupLine_append _ _ othersBefore, found, List.map_append,
    map_groupEntry_others _ _ othersBefore]
  rfl

/-- The first line about `g` starts its table behind the others. -/
theorem insertPath_new {order : List γ} {g : γ} (others : ∀ h ∈ order, name h ≠ name g) (k : κ)
    {lines : List (γ × κ)} (absent : g ∉ lines.map Prod.fst) :
    insertPath (groupLine name entry (g, k)).2 (groupLine name entry (g, k)).1
        (order.map (groupEntry name entry lines)) =
      some ((order ++ [g]).map (groupEntry name entry (lines ++ [(g, k)]))) := by
  have started : extendFirst (name g) (fun entries => some (entries ++ [entry g k])) [] =
      some ([g].map (groupEntry name entry (lines ++ [(g, k)]))) := by
    rw [List.map_singleton, groupEntry, saidOf_same, saidOf_absent absent]
    exact extendFirst_start rfl
  have step := insertPath_groupLine_append _ entry others k lines []
  rw [List.append_nil] at step
  rw [step, started, List.map_append, map_groupEntry_others _ _ others]
  rfl

/-- What the lines are about, each of it once. -/
structure GroupsOf (order : List γ) (lines : List (γ × κ)) : Prop where
  once : order.Nodup
  members : ∀ g, g ∈ order ↔ g ∈ lines.map Prod.fst

/-- One more line keeps one table for each of the groups, with what its lines say. -/
theorem insertPath_groupLine {order : List γ} {lines : List (γ × κ)} (groups : GroupsOf order lines)
    {g : γ} (others : ∀ h ∈ order, h ≠ g → name h ≠ name g) (k : κ) :
    ∃ grown, GroupsOf grown (lines ++ [(g, k)]) ∧
      insertPath (groupLine name entry (g, k)).2 (groupLine name entry (g, k)).1
        (order.map (groupEntry name entry lines)) =
          some (grown.map (groupEntry name entry (lines ++ [(g, k)]))) := by
  by_cases known : g ∈ order
  · have inLines : g ∈ lines.map Prod.fst := (groups.members g).1 known
    obtain ⟨before, behind, rfl⟩ := List.append_of_mem known
    have alone : g ∉ before ++ behind := (List.nodup_cons.1 (List.nodup_middle.1 groups.once)).1
    have othersAround : ∀ h ∈ before ++ behind, name h ≠ name g := by
      intro h mem
      refine others h ?_ fun same => alone (same ▸ mem)
      exact List.mem_append.2 ((List.mem_append.1 mem).imp_right (List.mem_cons_of_mem g))
    refine ⟨_, ⟨groups.once, fun h => ?_⟩, insertPath_known _ _ ?_ ?_ k lines⟩
    · rw [groups.members, List.map_append, List.map_singleton, List.mem_append, List.mem_singleton]
      exact ⟨.inl, fun mem => mem.elim id fun same => same ▸ inLines⟩
    · exact fun h mem => othersAround h (List.mem_append_left _ mem)
    · exact fun h mem => othersAround h (List.mem_append_right _ mem)
  · have absent : g ∉ lines.map Prod.fst := fun mem => known ((groups.members g).2 mem)
    refine ⟨order ++ [g], ⟨?_, fun h => ?_⟩, insertPath_new _ _ ?_ k absent⟩
    · exact List.nodup_append_comm.1 (List.nodup_cons.2 ⟨known, groups.once⟩)
    · rw [List.map_append, List.mem_append, List.mem_append, groups.members]
      rfl
    · exact fun h mem => others h mem fun same => known (same ▸ mem)

/-- Lines with keys of two parts make one table for each first part. -/
theorem insertAll_groups (lines : List (γ × κ))
    (apart : ∀ g ∈ lines.map Prod.fst, ∀ h ∈ lines.map Prod.fst, name g = name h → g = h) :
    ∃ order, GroupsOf order lines ∧
      insertAll (lines.map (groupLine name entry)) [] =
        some (order.map (groupEntry name entry lines)) := by
  -- from the right: the last line meets the tables that all lines before it have made
  induction lines using List.reverseRecOn with
  | nil => exact ⟨[], ⟨.nil, by simp⟩, rfl⟩
  | append_singleton lines line ih =>
    obtain ⟨g, k⟩ := line
    have old : ∀ h ∈ lines.map Prod.fst, h ∈ (lines ++ [(g, k)]).map Prod.fst := by
      intro h mem
      rw [List.map_append]
      exact List.mem_append_left _ mem
    have new : g ∈ (lines ++ [(g, k)]).map Prod.fst := by simp
    obtain ⟨order, groups, inserted⟩ :=
      ih fun h isOld other isOldToo => apart h (old h isOld) other (old other isOldToo)
    obtain ⟨grown, groupsGrown, step⟩ := insertPath_groupLine name entry groups
      (fun h mem other same => other (apart h (old h ((groups.members h).1 mem)) g new same)) k
    refine ⟨grown, groupsGrown, ?_⟩
    rw [insertAll] at inserted ⊢
    rw [List.map_append, List.foldlM_append, inserted, Option.bind_eq_bind, Option.bind_some,
      List.map_singleton, List.foldlM_cons, step]
    rfl

end Groups

end WordFields.Toml
