import WordFields.Toml.Statement

/-!
# Sections and the table they make

A section is a header with the pairs below it; the pairs above all headers are a section with an
empty path. Sections with a common first key belong to one entry of the outer table, wherever they
stand, and the entry stands where the first of them does. A section whose path has been used is a
fault of the table it would extend, behind the entries that come first.
-/

set_option autoImplicit false

namespace WordFields.Toml

structure Section where
  path : List String
  array : Bool
  entries : List (String × Node)
  deriving Repr

namespace Section

/-- The sections of `statements`, the first of which belong to `current`. -/
def collect (current : Section) : List Statement → Option (List Section)
  | [] => some [current]
  | .header header :: rest => do
    let others ← collect ⟨header.path, header.array, []⟩ rest
    some (current :: others)
  | .pair path value :: rest => do
    let entries ← insertPath value path current.entries
    collect { current with entries } rest

/-- The sections of a text; without pairs above the headers there is none for them. -/
def ofStatements (statements : List Statement) : Option (List Section) := do
  let sections ← collect ⟨[], false, []⟩ statements
  some (sections.filter fun s => !(s.path.isEmpty && s.entries.isEmpty))

/-- The section as seen from inside the entry `key`, if it belongs there. -/
def below (key : String) (s : Section) : Option Section :=
  match s.path with
  | first :: path => if first = key then some { s with path } else none
  | [] => none

/-- The sections inside the entry `key`. -/
def inside (key : String) (sections : List Section) : List Section :=
  sections.filterMap (below key)

/-- The sections not inside the entry `key`. -/
def outside (key : String) (sections : List Section) : List Section :=
  sections.filter fun s => (below key s).isNone

/-- The section starts an element of the array of tables that is being read. -/
def startsElement (s : Section) : Bool := s.array && s.path.isEmpty

/-- The sections before the next element. -/
def sameElement (sections : List Section) : List Section :=
  sections.takeWhile fun s => !s.startsElement

/-- The sections from the next element on. -/
def nextElements (sections : List Section) : List Section :=
  sections.dropWhile fun s => !s.startsElement

/-- The number of path parts, and of sections: what shrinks on the way into the table. -/
def weight : List Section → Nat
  | [] => 0
  | s :: rest => s.path.length + 1 + weight rest

theorem weight_cons (s : Section) (l : List Section) :
    weight (s :: l) = s.path.length + 1 + weight l := rfl

theorem weight_inside_le (key : String) (l : List Section) : weight (inside key l) ≤ weight l := by
  induction l with
  | nil => simp [inside]
  | cons s l ih =>
    unfold inside at ih ⊢
    rw [List.filterMap_cons, weight_cons]
    split
    · omega
    · rename_i t found
      have shorter : t.path.length < s.path.length := by
        unfold below at found
        split at found
        · rename_i first path same
          split at found
          · simp only [Option.some.injEq] at found
            simp [← found, same]
          · cases found
        · cases found
      simp only [weight_cons]
      omega

theorem weight_le_of_sublist {l m : List Section} (sub : l.Sublist m) : weight l ≤ weight m := by
  induction sub with
  | slnil => simp
  | cons s _ ih => rw [weight_cons]; omega
  | cons_cons s _ ih => rw [weight_cons, weight_cons]; omega

theorem weight_outside_le (key : String) (l : List Section) : weight (outside key l) ≤ weight l :=
  weight_le_of_sublist List.filter_sublist

theorem weight_sameElement_le (l : List Section) : weight (sameElement l) ≤ weight l :=
  weight_le_of_sublist (List.takeWhile_sublist _)

theorem weight_nextElements_le (l : List Section) : weight (nextElements l) ≤ weight l :=
  weight_le_of_sublist (List.dropWhile_sublist _)

/-- The path that a later section must not repeat: the first one met, then any shorter one. -/
def guarded (path : List String) : Option (List String) → List String
  | none => path
  | some guard => if path.length < guard.length then path else guard

mutual

/-- The table made of `sections`, with the path that none of them may repeat. -/
def table (guard : Option (List String)) (sections : List Section) : Table :=
  match sections with
  | [] => ⟨.closed, []⟩
  | ⟨[], array, entries⟩ :: rest =>
    if guard = some [] ∨ array then ⟨.repeated, []⟩
    else
      let others := table (some []) rest
      ⟨others.kind, entries ++ others.entries⟩
  | ⟨key :: path, array, entries⟩ :: rest =>
    if guard = some (key :: path) then ⟨.repeated, []⟩
    else
      let first : Section := ⟨path, array, entries⟩
      let group := first :: inside key rest
      let node := if first.startsElement then .array (elements group) else (table none group).node
      let others := table (some (guarded (key :: path) guard)) (outside key rest)
      ⟨others.kind, (key, node) :: others.entries⟩
termination_by weight sections
decreasing_by
  · simp only [weight_cons, List.length_nil]
    omega
  · have := weight_inside_le key rest
    simp only [weight_cons, List.length_cons]
    omega
  · have := weight_inside_le key rest
    simp only [weight_cons, List.length_cons]
    omega
  · have := weight_outside_le key rest
    simp only [weight_cons, List.length_cons]
    omega

/-- The elements of an array of tables, each from its header to the next. -/
def elements (sections : List Section) : List Node :=
  match sections with
  | [] => []
  | first :: rest =>
    let inner := table (some first.path) (sameElement rest)
    .table inner.kind (first.entries ++ inner.entries) :: elements (nextElements rest)
termination_by weight sections
decreasing_by
  · have := weight_sameElement_le rest
    rw [weight_cons]
    omega
  · have := weight_nextElements_le rest
    rw [weight_cons]
    omega

end

end Section

/-- The outermost table of a text, if it is TOML. -/
def Table.ofText? (text : String) : Option Table := do
  let tokens ← tokens? text.toList
  let statements ← statements tokens
  let sections ← Section.ofStatements statements
  some (Section.table none sections)

end WordFields.Toml
