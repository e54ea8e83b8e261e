import Mathlib.Data.List.Induction
import Mathlib.Data.List.Nodup
import WordFields.NameMap

/-!
# Entries of a map from names

What is found under a name is an entry of the map, and a map is determined by what is found in it. A
map made from a list finds the last entry of each name; where the names differ, it has the entries
of the list and their order does not matter.
-/

set_option autoImplicit false

namespace WordFields.NameMap

variable {α : Type}

/-- Among entries whose names differ, the one of a name is found. -/
theorem lookup_of_mem {entries : List (String × α)} (distinct : (entries.map Prod.fst).Nodup)
    {name : String} {value : α} (mem : (name, value) ∈ entries) :
    entries.lookup name = some value := by
  obtain ⟨before, behind, rfl⟩ := List.append_of_mem mem
  refine List.lookup_eq_some_iff.2 ⟨before, behind, rfl, fun e inBefore => ?_⟩
  rw [List.map_append, List.map_cons] at distinct
  have apart := (List.nodup_append.1 distinct).2.2
  have other := apart e.1 (List.mem_map_of_mem inBefore) name List.mem_cons_self
  exact bne_iff_ne.2 other.symm

theorem lookup_eq_some_iff_mem {entries : List (String × α)}
    (distinct : (entries.map Prod.fst).Nodup) {name : String} {value : α} :
    entries.lookup name = some value ↔ (name, value) ∈ entries := by
  constructor
  · intro found
    obtain ⟨before, behind, split, -⟩ := List.lookup_eq_some_iff.1 found
    rw [split]
    simp
  · exact lookup_of_mem distinct

theorem lookup_reverse_eq_some_iff_mem {entries : List (String × α)}
    (distinct : (entries.map Prod.fst).Nodup) {name : String} {value : α} :
    entries.reverse.lookup name = some value ↔ (name, value) ∈ entries := by
  have distinctReverse : (entries.reverse.map Prod.fst).Nodup := by
    rwa [List.map_reverse, List.nodup_reverse]
  rw [lookup_eq_some_iff_mem distinctReverse, List.mem_reverse]

theorem nodup_names (m : NameMap α) : (m.entries.map Prod.fst).Nodup := by
  rw [List.Nodup, List.pairwise_map]
  refine m.sorted.imp ?_
  intro a b before same
  rw [same] at before
  exact String.lt_irrefl _ before

theorem get?_eq_some_iff {m : NameMap α} {name : String} {value : α} :
    m.get? name = some value ↔ (name, value) ∈ m.entries :=
  lookup_eq_some_iff_mem m.nodup_names

/-- Maps in which the same is found have the same entries, in the same order. -/
theorem ext {m n : NameMap α} (same : ∀ name, m.get? name = n.get? name) : m = n := by
  have members : ∀ e, e ∈ m.entries ↔ e ∈ n.entries := by
    rintro ⟨name, value⟩
    rw [← get?_eq_some_iff, ← get?_eq_some_iff, same]
  have shuffled : m.entries.Perm n.entries :=
    (List.perm_ext_iff_of_nodup (.of_map _ m.nodup_names) (.of_map _ n.nodup_names)).2 members
  have ordered : m.entries = n.entries := by
    refine shuffled.eq_of_pairwise (fun a b _ _ below above => ?_) m.sorted n.sorted
    exact absurd (String.lt_trans below above) (String.lt_irrefl _)
  cases m
  cases n
  cases ordered
  rfl

theorem get?_foldl_insert (entries : List (String × α)) (m : NameMap α) (name : String) :
    (entries.foldl (fun m e => m.insert e.1 e.2) m).get? name =
      (entries.reverse.lookup name).or (m.get? name) := by
  induction entries generalizing m with
  | nil => rfl
  | cons e rest ih =>
    rw [List.foldl_cons, ih, get?_insert, List.reverse_cons, List.lookup_append, Option.or_assoc,
      lookup_cons_ite]
    by_cases same : name = e.1
    · simp [same]
    · simp [same]

/-- Of several entries of one name the last is found. -/
theorem get?_ofList (entries : List (String × α)) (name : String) :
    (ofList entries).get? name = entries.reverse.lookup name := by
  rw [ofList, get?_foldl_insert]
  simp [get?, empty]

theorem lookup_reverse (entries : List (String × α)) (name : String) :
    entries.reverse.lookup name = (entries.filter (·.1 = name)).getLast?.map Prod.snd := by
  induction entries using List.reverseRecOn with
  | nil => rfl
  | append_singleton entries e ih =>
    rw [List.reverse_append, List.reverse_singleton, List.singleton_append, lookup_cons_ite, ih,
      List.filter_append]
    by_cases same : e.1 = name
    · simp [same]
    · simp [same, Ne.symm same]

/-- The order in which names are added does not matter if they differ. -/
theorem foldl_insert_perm {entries others : List (String × α)} (shuffled : entries.Perm others)
    (distinct : (entries.map Prod.fst).Nodup) (m : NameMap α) :
    entries.foldl (fun m e => m.insert e.1 e.2) m =
      others.foldl (fun m e => m.insert e.1 e.2) m := by
  have distinctOthers : (others.map Prod.fst).Nodup := (shuffled.map Prod.fst).nodup_iff.1 distinct
  refine ext fun name => ?_
  rw [get?_foldl_insert, get?_foldl_insert]
  have same : entries.reverse.lookup name = others.reverse.lookup name := by
    refine Option.ext fun value => ?_
    rw [lookup_reverse_eq_some_iff_mem distinct, lookup_reverse_eq_some_iff_mem distinctOthers,
      shuffled.mem_iff]
  rw [same]

theorem ofList_perm {entries others : List (String × α)} (shuffled : entries.Perm others)
    (distinct : (entries.map Prod.fst).Nodup) : ofList entries = ofList others :=
  foldl_insert_perm shuffled distinct .empty

/-- Entries whose names differ are the entries of their map. -/
theorem entries_ofList {entries : List (String × α)} (distinct : (entries.map Prod.fst).Nodup) :
    (ofList entries).entries.Perm entries := by
  refine (List.perm_ext_iff_of_nodup (.of_map _ (nodup_names _)) (.of_map _ distinct)).2 ?_
  rintro ⟨name, value⟩
  rw [← get?_eq_some_iff, get?_ofList, lookup_reverse_eq_some_iff_mem distinct]

/-- A map is made from its entries, in whatever order. -/
theorem ofList_of_perm {m : NameMap α} {entries : List (String × α)}
    (shuffled : entries.Perm m.entries) : ofList entries = m := by
  have distinct : (entries.map Prod.fst).Nodup :=
    (shuffled.map Prod.fst).nodup_iff.2 m.nodup_names
  refine ext fun name => Option.ext fun value => ?_
  rw [get?_eq_some_iff, get?_eq_some_iff, (entries_ofList distinct).mem_iff, shuffled.mem_iff]

/-- Every name has its place among entries in name order: what is below it, perhaps an entry of its
own, and what is above it. Adding the name changes nothing but its own entry. -/
theorem insertEntry_split (name : String) {entries : List (String × α)}
    (sorted : entries.Pairwise fun a b => a.1 < b.1) :
    ∃ before behind, (∀ e ∈ before, e.1 < name) ∧ (∀ e ∈ behind, name < e.1) ∧
      entries = before ++ ((entries.lookup name).map (name, ·)).toList ++ behind ∧
      ∀ value, insertEntry name value entries = before ++ (name, value) :: behind := by
  induction entries with
  | nil => exact ⟨[], [], by simp, by simp, by simp, fun _ => rfl⟩
  | cons entry rest ih =>
    obtain ⟨below, sortedRest⟩ := List.pairwise_cons.1 sorted
    by_cases first : name < entry.1
    · have above : ∀ e ∈ entry :: rest, name < e.1 := by
        intro e mem
        rcases List.mem_cons.1 mem with rfl | later
        · exact first
        · exact String.lt_trans first (below e later)
      have absent : (entry :: rest).lookup name = none := by
        rw [List.lookup_eq_none_iff]
        intro e mem
        have other : name ≠ e.1 := fun same => String.lt_irrefl _ (same ▸ above e mem)
        simpa using other
      refine ⟨[], entry :: rest, by simp, above, by simp [absent], fun value => ?_⟩
      simp [insertEntry, first]
    · by_cases same : name = entry.1
      · refine ⟨[], rest, by simp, ?_, ?_, fun value => ?_⟩
        · rw [same]
          exact below
        · simp [lookup_cons_ite, same]
        · simp [insertEntry, same]
      · have last : entry.1 < name := lt_of_not_lt_of_ne first same
        obtain ⟨before, behind, isBelow, isAbove, whole, inserted⟩ := ih sortedRest
        refine ⟨entry :: before, behind, ?_, isAbove, ?_, fun value => ?_⟩
        · intro e mem
          rcases List.mem_cons.1 mem with rfl | later
          · exact last
          · exact isBelow e later
        · rw [lookup_cons_ite, if_neg same]
          exact congrArg (entry :: ·) whole
        · simp [insertEntry, first, same, inserted]

end WordFields.NameMap
