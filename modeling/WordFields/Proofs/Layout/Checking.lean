import WordFields.Proofs.Layout.Decoding
import WordFields.Layout.Reading
import WordFields.Proofs.Text.ByteOrder

/-!
# What validation accepts

Validation looks at the width first and then for the first field, in name order, that ends past it.
Everything it accepts is valid, and it refuses everything else; adding a field keeps a layout valid.
-/

set_option autoImplicit false

namespace WordFields.Layout

/-- The first field in name order that ends past the width. -/
def firstOutside (l : Layout) : Option (String × Field) :=
  l.fields.entries.find? fun e => l.width < e.2.range.stop

/-- What validation makes of a layout: its width decides before any field does. -/
def verdict (l : Layout) : Outcome LayoutError Unit := do
  checkWidth l.width
  l.firstOutside.elim (.ok ()) fun e => .refuse (.inField e.1 (.outside e.2.range.stop l.width))

theorem checkFields_eq (width : Position) (entries : List (String × Field)) :
    (entries.forM fun e => checkField width e.1 e.2) =
      (entries.find? fun e => width < e.2.range.stop).elim (.ok ()) fun e =>
        .refuse (.inField e.1 (.outside e.2.range.stop width)) := by
  induction entries with
  | nil => rfl
  | cons e rest ih =>
    rw [List.forM_eq_forM] at ih ⊢
    by_cases past : width < e.2.range.stop
    · have refused : checkField width e.1 e.2 =
          .refuse (.inField e.1 (.outside e.2.range.stop width)) :=
        if_neg (Fin.not_le.2 past)
      rw [List.forM_cons, refused, List.find?_cons_of_pos (by simpa using past)]
      rfl
    · have passed : checkField width e.1 e.2 = .ok () := if_pos (Fin.not_lt.1 past)
      rw [List.forM_cons, passed, List.find?_cons_of_neg (by simpa using past), ok_bind]
      exact ih

theorem checkWidth_of_supported {width : Position} (supported : width ∈ supportedWidths) :
    checkWidth width = .ok () :=
  if_pos supported

theorem checkWidth_of_unsupported {width : Position} (unsupported : width ∉ supportedWidths) :
    checkWidth width = .refuse (.unsupportedWidth width) :=
  if_neg unsupported

theorem check_eq (l : Layout) : l.check = l.verdict := by
  unfold check verdict firstOutside
  rw [checkFields_eq]

theorem firstOutside_eq_none_iff {l : Layout} :
    l.firstOutside = none ↔ ∀ e ∈ l.fields.entries, e.2.range.stop ≤ l.width := by
  simp [firstOutside]

/-- The field that validation refuses has the least name of those that end past the width. -/
theorem firstOutside_least {l : Layout} {e : String × Field} (outside : l.firstOutside = some e) :
    e ∈ l.fields.entries ∧ l.width < e.2.range.stop ∧
      ∀ f ∈ l.fields.entries, l.width < f.2.range.stop → Text.bytes e.1 ≤ Text.bytes f.1 := by
  obtain ⟨past, before, behind, entries, passed⟩ := List.find?_eq_some_iff_append.1 outside
  have sorted := l.fields.sorted
  rw [entries] at sorted ⊢
  refine ⟨by simp, by simpa using past, fun f mem pastToo => ?_⟩
  rw [← List.not_lt, ← Text.lt_iff_bytes_lt]
  -- the fields before it fit, and the fields behind it have larger names
  rcases List.mem_append.1 mem with inBefore | inRest
  · have within := passed f inBefore
    simp only [Bool.not_eq_true', decide_eq_false_iff_not] at within
    exact absurd pastToo within
  · rcases List.mem_cons.1 inRest with rfl | inBehind
    · exact String.lt_irrefl _
    · have above := (List.pairwise_cons.1 (List.pairwise_append.1 sorted).2.1).1 f inBehind
      exact fun below => String.lt_irrefl _ (String.lt_trans above below)

theorem check_of_unsupported {l : Layout} (unsupported : l.width ∉ supportedWidths) :
    l.check = .refuse (.unsupportedWidth l.width) := by
  rw [check_eq, verdict, checkWidth_of_unsupported unsupported]
  rfl

theorem check_of_past {l : Layout} (supported : l.width ∈ supportedWidths)
    (past : ∃ e ∈ l.fields.entries, l.width < e.2.range.stop) :
    ∃ e ∈ l.fields.entries, l.width < e.2.range.stop ∧
      (∀ f ∈ l.fields.entries, l.width < f.2.range.stop → Text.bytes e.1 ≤ Text.bytes f.1) ∧
      l.check = .refuse (.inField e.1 (.outside e.2.range.stop l.width)) := by
  cases outside : l.firstOutside with
  | none =>
    obtain ⟨e, mem, isPast⟩ := past
    exact absurd (firstOutside_eq_none_iff.1 outside e mem) (Fin.not_le.2 isPast)
  | some e =>
    obtain ⟨mem, isPast, least⟩ := firstOutside_least outside
    refine ⟨e, mem, isPast, least, ?_⟩
    rw [check_eq, verdict, checkWidth_of_supported supported, ok_bind, outside]
    rfl

theorem check_of_valid {l : Layout} (valid : l.Valid) : l.check = .ok () := by
  rw [check_eq, verdict, checkWidth_of_supported valid.supported,
    firstOutside_eq_none_iff.2 valid.within]
  rfl

/-- A layout is checked without a fault: a valid one is accepted, and any other is refused. -/
theorem check_cases (l : Layout) :
    (l.Valid ∧ l.check = .ok ()) ∨ (¬ l.Valid ∧ ∃ error, l.check = .refuse error) := by
  by_cases supported : l.width ∈ supportedWidths
  · by_cases past : ∃ e ∈ l.fields.entries, l.width < e.2.range.stop
    · obtain ⟨e, mem, isPast, -, refused⟩ := check_of_past supported past
      exact .inr ⟨fun valid => absurd (valid.within e mem) (Fin.not_le.2 isPast), _, refused⟩
    · have valid : l.Valid :=
        ⟨supported, fun e mem => Fin.not_lt.1 fun isPast => past ⟨e, mem, isPast⟩⟩
      exact .inl ⟨valid, check_of_valid valid⟩
  · exact .inr ⟨fun valid => supported valid.supported, _, check_of_unsupported supported⟩

theorem check_eq_ok_iff {l : Layout} : l.check = .ok () ↔ l.Valid := by
  constructor
  · intro accepted
    rcases l.check_cases with ⟨valid, -⟩ | ⟨-, error, refused⟩
    · exact valid
    · rw [refused] at accepted
      cases accepted
  · exact check_of_valid

theorem check_of_not_valid {l : Layout} (invalid : ¬ l.Valid) :
    ∃ error, l.check = .refuse error := by
  rcases l.check_cases with ⟨valid, -⟩ | ⟨-, refused⟩
  · exact absurd valid invalid
  · exact refused

theorem check_refuses {l : Layout} {failure : Failure LayoutError}
    (failed : l.check = .error failure) : ∃ error, failure = .refusal error := by
  rcases l.check_cases with ⟨-, accepted⟩ | ⟨-, error, refused⟩
  · rw [accepted] at failed
    cases failed
  · rw [refused] at failed
    cases failed
    exact ⟨error, rfl⟩

theorem validate_value (l : Layout) : l.validate.value = l.check := by
  unfold validate
  cases l.check <;> rfl

/-- Accepting a layout is checking it; the warnings and the record of its size are beside that. -/
theorem accept_value (l : Layout) : l.accept.value = l.check.map fun _ => l := by
  unfold accept validate
  cases l.check with
  | ok => rfl
  | error failure => rfl

/-- A layout that is refused is refused in silence. -/
theorem accept_of_check_error {l : Layout} {failure : Failure LayoutError}
    (failed : l.check = .error failure) : l.accept = .quiet (.error failure) := by
  rw [accept, validate, failed]
  rfl

theorem accept_of_valid {l : Layout} (valid : l.Valid) :
    l.accept = ⟨.ok l, overlapWarnings l.fields.entries ++ [l.sizeRecord]⟩ := by
  rw [accept, validate, check_of_valid valid]

theorem accept_eq_ok_iff {l k : Layout} : l.accept.value = .ok k ↔ k = l ∧ l.Valid := by
  rw [accept_value, ← check_eq_ok_iff]
  cases l.check with
  | ok => simp [Except.map, eq_comm]
  | error failure => simp [Except.map]

theorem ofWidth_eq_ok_iff {width : Position} {l : Layout} :
    ofWidth width = .ok l ↔ width ∈ supportedWidths ∧ l = ⟨width, .empty⟩ := by
  unfold ofWidth
  by_cases supported : width ∈ supportedWidths
  · rw [checkWidth_of_supported supported]
    simp [supported, pure, Except.pure, eq_comm]
  · rw [checkWidth_of_unsupported supported]
    constructor
    · intro made
      cases made
    · rintro ⟨isSupported, -⟩
      exact absurd isSupported supported

theorem insert_eq_ok_iff {l grown : Layout} {name : String} {field : Field} :
    l.insert name field = .ok grown ↔
      field.range.stop ≤ l.width ∧ grown = { l with fields := l.fields.insert name field } := by
  unfold insert checkField
  split
  next within => simp [within, pure, Except.pure, eq_comm]
  next past =>
    constructor
    · intro made
      cases made
    · rintro ⟨within, -⟩
      exact absurd within past

/-- What is made of a layout that a text spells: it is given back unless it is refused. -/
theorem parseValid_of_parse {text : String} {l : Layout} (read : parse text = .ok l) :
    (parseValid text).value = l.verdict.map fun _ => l := by
  rw [parseValid, read, accept_value, check_eq]

theorem parseValid_eq_ok_iff {text : String} {l : Layout} :
    (parseValid text).value = .ok l ↔ parse text = .ok l ∧ l.Valid := by
  unfold parseValid
  cases parse text with
  | error e => simp [Logged.quiet, Outcome.refuse]
  | ok read =>
    rw [accept_eq_ok_iff]
    constructor
    · rintro ⟨rfl, valid⟩
      exact ⟨rfl, valid⟩
    · rintro ⟨same, valid⟩
      cases same
      exact ⟨rfl, valid⟩

theorem valid_of_ofWidth {width : Position} {l : Layout} (made : ofWidth width = .ok l) :
    l.Valid := by
  obtain ⟨supported, rfl⟩ := ofWidth_eq_ok_iff.1 made
  exact ⟨supported, fun e mem => nomatch mem⟩

/-- Adding a field keeps a layout valid: the field has been checked against the width. -/
theorem Valid.insert {l grown : Layout} (valid : l.Valid) {name : String} {field : Field}
    (made : l.insert name field = .ok grown) : grown.Valid := by
  obtain ⟨within, rfl⟩ := insert_eq_ok_iff.1 made
  refine ⟨valid.supported, fun e mem => ?_⟩
  rcases NameMap.mem_insertEntry mem with rfl | old
  · exact within
  · exact valid.within e old

end WordFields.Layout
