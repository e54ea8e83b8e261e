/-!
# Maps from names, in name order

The entries of a `NameMap` are kept strictly increasing by name, in code point order, which is also
the byte order of the names in UTF-8. Equal maps therefore have equal entries, and the entries are
the order in which everything that walks a map goes.
-/

set_option autoImplicit false

namespace WordFields

structure NameMap (α : Type) where
  entries : List (String × α)
  sorted : entries.Pairwise fun a b => a.1 < b.1
  deriving Repr

namespace NameMap

variable {α : Type}

instance [DecidableEq α] : DecidableEq (NameMap α) := fun m n =>
  if h : m.entries = n.entries then .isTrue (by cases m; cases n; simp_all)
  else .isFalse fun equal => h (congrArg entries equal)

def empty : NameMap α := ⟨[], .nil⟩

def size (m : NameMap α) : Nat := m.entries.length

def names (m : NameMap α) : List String := m.entries.map Prod.fst

def get? (m : NameMap α) (name : String) : Option α := m.entries.lookup name

/-- Puts `name` at its place among entries in name order, replacing an entry of that name. -/
def insertEntry (name : String) (value : α) : List (String × α) → List (String × α)
  | [] => [(name, value)]
  | entry :: rest =>
    if name < entry.1 then (name, value) :: entry :: rest
    else if name = entry.1 then (name, value) :: rest
    else entry :: insertEntry name value rest

theorem mem_insertEntry {name : String} {value : α} {e : String × α} {l : List (String × α)}
    (h : e ∈ insertEntry name value l) : e = (name, value) ∨ e ∈ l := by
  induction l with
  | nil => simpa [insertEntry] using h
  | cons entry rest ih =>
    unfold insertEntry at h
    split at h
    · simpa using h
    · split at h
      · rcases List.mem_cons.1 h with same | later
        · exact .inl same
        · exact .inr (List.mem_cons_of_mem _ later)
      · rcases List.mem_cons.1 h with same | later
        · exact .inr (same ▸ List.mem_cons_self)
        · rcases ih later with new | old
          · exact .inl new
          · exact .inr (List.mem_cons_of_mem _ old)

theorem lt_of_not_lt_of_ne {a b : String} (not_lt : ¬ a < b) (ne : a ≠ b) : b < a := by
  by_cases h : b < a
  · exact h
  · exact absurd (String.le_antisymm (String.not_lt.1 h) (String.not_lt.1 not_lt)) ne

theorem sorted_insertEntry (name : String) (value : α) {l : List (String × α)}
    (sorted : l.Pairwise fun a b => a.1 < b.1) :
    (insertEntry name value l).Pairwise fun a b => a.1 < b.1 := by
  induction l with
  | nil => simp [insertEntry]
  | cons entry rest ih =>
    obtain ⟨below, sortedRest⟩ := List.pairwise_cons.1 sorted
    unfold insertEntry
    split
    · rename_i first
      refine List.pairwise_cons.2 ⟨fun e mem => ?_, sorted⟩
      rcases List.mem_cons.1 mem with same | later
      · exact same ▸ first
      · exact String.lt_trans first (below e later)
    · rename_i notFirst
      split
      · rename_i same
        exact List.pairwise_cons.2 ⟨fun e mem => same ▸ below e mem, sortedRest⟩
      · rename_i other
        refine List.pairwise_cons.2 ⟨fun e mem => ?_, ih sortedRest⟩
        rcases mem_insertEntry mem with new | old
        · exact new ▸ lt_of_not_lt_of_ne notFirst other
        · exact below e old

/-- Adds `name`, or replaces its value. -/
def insert (m : NameMap α) (name : String) (value : α) : NameMap α :=
  ⟨insertEntry name value m.entries, sorted_insertEntry name value m.sorted⟩

/-- The map of a list of entries; of several entries of one name the last is kept. -/
def ofList (entries : List (String × α)) : NameMap α :=
  entries.foldl (fun m e => m.insert e.1 e.2) empty

theorem lookup_cons_ite (name : String) (e : String × α) (l : List (String × α)) :
    (e :: l).lookup name = if name = e.1 then some e.2 else l.lookup name := by
  rw [List.lookup_cons]
  by_cases same : name = e.1
  · simp [same]
  · simp [beq_eq_false_iff_ne.2 same, same]

theorem lookup_insertEntry (name other : String) (value : α) (l : List (String × α)) :
    (insertEntry name value l).lookup other
      = if other = name then some value else l.lookup other := by
  induction l with
  | nil => simp only [insertEntry, lookup_cons_ite, List.lookup_nil]
  | cons entry rest ih =>
    unfold insertEntry
    split
    · simp only [lookup_cons_ite]
    · split
      · rename_i same
        simp only [lookup_cons_ite, same]
        split <;> rfl
      · rename_i different
        simp only [lookup_cons_ite, ih]
        split
        · rename_i head
          simp [head, Ne.symm different]
        · rfl

theorem get?_insert (m : NameMap α) (name other : String) (value : α) :
    (m.insert name value).get? other = if other = name then some value else m.get? other :=
  lookup_insertEntry name other value m.entries

end NameMap

end WordFields
