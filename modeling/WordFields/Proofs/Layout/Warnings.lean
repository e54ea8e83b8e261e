import WordFields.Proofs.Layout.RoundTrip

/-!
# Which overlaps are warned about, and in which order

A layout that is accepted is searched for fields with a position in common, each field against all
behind it. That meets every pair of fields once, in the byte order of the names of the first and
then of the second, and warns about those that share a position. A layout that is refused, for its
width or for a field, logs nothing.
-/

set_option autoImplicit false

namespace WordFields.Layout

/-- Two fields with their names. -/
abbrev FieldPair := (String × Field) × (String × Field)

/-- By the name of the first field, and then by that of the second, in the order of their bytes. -/
def FieldPair.Before (p q : FieldPair) : Prop :=
  Text.bytes p.1.1 < Text.bytes q.1.1 ∨ p.1.1 = q.1.1 ∧ Text.bytes p.2.1 < Text.bytes q.2.1

/-- The pairs are the overlaps of the layout: all its fields that have a position in common, the one
with the smaller name first, each pair once and in order. -/
structure OverlapList (l : Layout) (pairs : List FieldPair) : Prop where
  mem_iff : ∀ a b, (a, b) ∈ pairs ↔
    a ∈ l.fields.entries ∧ b ∈ l.fields.entries ∧ Text.bytes a.1 < Text.bytes b.1 ∧
      ∃ i, a.2.range.contains i = true ∧ b.2.range.contains i = true
  ordered : pairs.Pairwise FieldPair.Before

theorem FieldPair.Before.asymm {p q : FieldPair} (before : p.Before q) : ¬ q.Before p := by
  rintro (after | ⟨same, after⟩)
  · rcases before with first | ⟨same, -⟩
    · exact List.lt_irrefl _ (List.lt_trans first after)
    · rw [same] at after
      exact List.lt_irrefl _ after
  · rcases before with first | ⟨-, second⟩
    · rw [same] at first
      exact List.lt_irrefl _ first
    · exact List.lt_irrefl _ (List.lt_trans second after)

/-- A layout has one list of overlaps. -/
theorem OverlapList.unique {l : Layout} {pairs others : List FieldPair}
    (lists : l.OverlapList pairs) (listsToo : l.OverlapList others) : pairs = others := by
  have distinct : ∀ {ps : List FieldPair}, ps.Pairwise FieldPair.Before → ps.Nodup := by
    intro ps ordered
    refine ordered.imp ?_
    rintro p q before rfl
    exact before.asymm before
  have members : ∀ p, p ∈ pairs ↔ p ∈ others := by
    rintro ⟨a, b⟩
    rw [lists.mem_iff, listsToo.mem_iff]
  have shuffled : pairs.Perm others :=
    (List.perm_ext_iff_of_nodup (distinct lists.ordered) (distinct listsToo.ordered)).2 members
  refine shuffled.eq_of_pairwise ?_ lists.ordered listsToo.ordered
  intro p q _ _ before after
  exact absurd after before.asymm

/-- The pairs that are warned about, in turn. -/
def overlapPairs : List (String × Field) → List FieldPair
  | [] => []
  | first :: rest =>
    (rest.filter fun later => first.2.range.meets later.2.range).map (fun later => (first, later))
      ++ overlapPairs rest

theorem overlapWarnings_eq (entries : List (String × Field)) :
    overlapWarnings entries = (overlapPairs entries).map fun p => overlapWarning p.1 p.2 := by
  induction entries with
  | nil => rfl
  | cons first rest ih =>
    rw [overlapWarnings, overlapPairs, List.map_append, List.map_map, ih]
    rfl

/-- Each field is compared with those behind it, which are those with a larger name. -/
theorem mem_overlapPairs {entries : List (String × Field)}
    (sorted : entries.Pairwise fun a b => a.1 < b.1) {a b : String × Field} :
    (a, b) ∈ overlapPairs entries ↔
      a ∈ entries ∧ b ∈ entries ∧ a.1 < b.1 ∧ a.2.range.meets b.2.range = true := by
  induction entries with
  | nil => simp [overlapPairs]
  | cons first rest ih =>
    obtain ⟨below, sortedRest⟩ := List.pairwise_cons.1 sorted
    have ofFirst : (a, b) ∈ overlapPairs (first :: rest) ↔
        (first = a ∧ b ∈ rest ∧ first.2.range.meets b.2.range = true) ∨
          (a, b) ∈ overlapPairs rest := by
      simp only [overlapPairs, List.mem_append, List.mem_map, List.mem_filter, Prod.mk.injEq]
      grind
    rw [ofFirst, ih sortedRest]
    constructor
    · rintro (⟨rfl, inRest, meet⟩ | ⟨inA, inB, before, meet⟩)
      · exact ⟨List.mem_cons_self, List.mem_cons_of_mem _ inRest, below b inRest, meet⟩
      · exact ⟨List.mem_cons_of_mem _ inA, List.mem_cons_of_mem _ inB, before, meet⟩
    · rintro ⟨memA, memB, before, meet⟩
      rcases List.mem_cons.1 memB with rfl | inB
      · -- no field stands before the first one
        rcases List.mem_cons.1 memA with rfl | inA
        · exact absurd before (String.lt_irrefl _)
        · exact absurd (String.lt_trans before (below a inA)) (String.lt_irrefl _)
      · rcases List.mem_cons.1 memA with rfl | inA
        · exact .inl ⟨rfl, inB, meet⟩
        · exact .inr ⟨inA, inB, before, meet⟩

theorem overlapPairs_ordered {entries : List (String × Field)}
    (sorted : entries.Pairwise fun a b => a.1 < b.1) :
    (overlapPairs entries).Pairwise FieldPair.Before := by
  induction entries with
  | nil => exact .nil
  | cons first rest ih =>
    obtain ⟨below, sortedRest⟩ := List.pairwise_cons.1 sorted
    rw [overlapPairs, List.pairwise_append]
    refine ⟨?_, ih sortedRest, ?_⟩
    · rw [List.pairwise_map]
      apply (sortedRest.filter _).imp
      intro b c before
      exact .inr ⟨rfl, Text.lt_iff_bytes_lt.1 before⟩
    · rintro p ofFirst ⟨a, b⟩ ofRest
      obtain ⟨later, -, rfl⟩ := List.mem_map.1 ofFirst
      have inRest := ((mem_overlapPairs sortedRest).1 ofRest).1
      exact .inl (Text.lt_iff_bytes_lt.1 (below a inRest))

theorem overlapList_overlapPairs (l : Layout) : l.OverlapList (overlapPairs l.fields.entries) where
  mem_iff a b := by
    rw [mem_overlapPairs l.fields.sorted, Text.lt_iff_bytes_lt, BitRange.meets_iff]
  ordered := overlapPairs_ordered l.fields.sorted

/-- What a text is told that spells a layout. An unsupported width is refused, and else the field
with the least name of those that end past the width, both without a record. Otherwise the layout is
given back, and the log has one warning for each pair in the list of its overlaps, and then a record
of its width and the number of its fields. -/
theorem parseValid_outcome {text : String} {l : Layout} (read : parse text = .ok l) :
    (l.width ∉ supportedWidths →
      parseValid text = .quiet (.refuse (.unsupportedWidth l.width))) ∧
    (l.width ∈ supportedWidths → (∃ e ∈ l.fields.entries, l.width < e.2.range.stop) →
      ∃ e ∈ l.fields.entries, l.width < e.2.range.stop ∧
        (∀ f ∈ l.fields.entries, l.width < f.2.range.stop → Text.bytes e.1 ≤ Text.bytes f.1) ∧
        parseValid text = .quiet (.refuse (.inField e.1 (.outside e.2.range.stop l.width)))) ∧
    (l.width ∈ supportedWidths → (∀ e ∈ l.fields.entries, e.2.range.stop ≤ l.width) →
      ∃ pairs, (∀ others, l.OverlapList others ↔ others = pairs) ∧
        parseValid text = ⟨.ok l,
          pairs.map (fun (a, b) => ⟨.warn,
            s!"fields '{a.1}' ({a.2.range.text}) and '{b.1}' ({b.2.range.text}) overlap"⟩) ++
          [⟨.debug,
            s!"parsed {l.width.val}-bit layout with {l.fields.entries.length} fields"⟩]⟩) := by
  have accepted : parseValid text = l.accept := by
    rw [parseValid, read]
  rw [accepted]
  refine ⟨fun unsupported => ?_, fun supported past => ?_, fun supported within => ?_⟩
  · exact accept_of_check_error (check_of_unsupported unsupported)
  · obtain ⟨e, mem, isPast, least, refused⟩ := check_of_past supported past
    exact ⟨e, mem, isPast, least, accept_of_check_error refused⟩
  · have lists := l.overlapList_overlapPairs
    refine ⟨overlapPairs l.fields.entries, fun others => ?_, ?_⟩
    · constructor
      · intro listsToo
        exact listsToo.unique lists
      · rintro rfl
        exact lists
    · rw [accept_of_valid ⟨supported, within⟩, overlapWarnings_eq]
      rfl

/-- Of three fields the first two are neighbours and the third shares a position with each of them.
Of 16 bits the layout is accepted with two warnings; 12 bits are no width, and 8 are too few for the
second field. -/
theorem neighbours_are_not_warned_about :
    let a : String × Field := ("a", ⟨⟨⟨0, by decide⟩, ⟨4, by decide⟩, by decide⟩, false⟩)
    let b : String × Field := ("b", ⟨⟨⟨4, by decide⟩, ⟨9, by decide⟩, by decide⟩, true⟩)
    let c : String × Field := ("c", ⟨⟨⟨3, by decide⟩, ⟨5, by decide⟩, by decide⟩, false⟩)
    let layout (width : Position) : Layout := ⟨width, ⟨[a, b, c], by decide⟩⟩
    parseValid (layout ⟨16, by decide⟩).render = ⟨.ok (layout ⟨16, by decide⟩),
      [⟨.warn, "fields 'a' (0..4) and 'c' (3..5) overlap"⟩,
        ⟨.warn, "fields 'b' (4..9) and 'c' (3..5) overlap"⟩,
        ⟨.debug, "parsed 16-bit layout with 3 fields"⟩]⟩ ∧
    parseValid (layout ⟨12, by decide⟩).render =
      .quiet (.refuse (.unsupportedWidth ⟨12, by decide⟩)) ∧
    parseValid (layout ⟨8, by decide⟩).render =
      .quiet (.refuse (.inField "b" (.outside ⟨9, by decide⟩ ⟨8, by decide⟩))) := by
  intro a b c layout
  have sixteen := parse_render (l := layout ⟨16, by decide⟩) ⟨by decide, by decide⟩
  have twelve := parse_render (l := layout ⟨12, by decide⟩) ⟨by decide, by decide⟩
  have eight := parse_render (l := layout ⟨8, by decide⟩) ⟨by decide, by decide⟩
  refine ⟨?_, (parseValid_outcome twelve).1 (by decide), ?_⟩
  · obtain ⟨pairs, unique, accepted⟩ :=
      (parseValid_outcome sixteen).2.2 (by decide) (by decide)
    have listed : [(a, c), (b, c)] = pairs := (unique _).1 (overlapList_overlapPairs _)
    rw [accepted, ← listed]
    decide
  · obtain ⟨e, mem, past, -, refused⟩ :=
      (parseValid_outcome eight).2.1 (by decide) ⟨b, by decide, by decide⟩
    have isB : e = b := by
      rcases List.mem_cons.1 mem with rfl | behind
      · exact absurd past (by decide)
      · rcases List.mem_cons.1 behind with rfl | last
        · rfl
        · rw [List.mem_singleton.1 last] at past
          exact absurd past (by decide)
    rw [refused, isB]

end WordFields.Layout
