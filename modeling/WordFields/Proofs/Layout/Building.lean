import WordFields.Proofs.Layout.Checking
import WordFields.Proofs.Layout.Entries
import WordFields.Layout.Writing

/-!
# Building a layout is updating a map

A layout is built by calls that add a field each, or replace the field of that name. A call is
refused for the end of its field alone, whatever calls came before it, and leaves the layout as it
was. So the layout after any number of calls has the field of the last accepted call of each name,
and only calls of one name depend on their order. In what is decoded of a word, one accepted call
changes nothing but the entry of its own name, which has its place in name order.
-/

set_option autoImplicit false

namespace WordFields

namespace Layout

variable {s : WordSize}

theorem insert_eq (l : Layout) (name : String) (field : Field) :
    l.insert name field = if field.range.stop ≤ l.width then
        .ok { l with fields := l.fields.insert name field }
      else .refuse (.inField name (.outside field.range.stop l.width)) := by
  unfold insert checkField
  split <;> rfl

/-- The layout after a call that adds a field under a name: if the call is refused, what it was. -/
def offer (l : Layout) (call : String × Field) : Layout :=
  match l.insert call.1 call.2 with
  | .ok grown => grown
  | .error _ => l

/-- The layout after all calls, one after the other. -/
def offerAll (l : Layout) (calls : List (String × Field)) : Layout := calls.foldl offer l

theorem offer_of_within {l : Layout} {call : String × Field}
    (within : call.2.range.stop ≤ l.width) :
    l.offer call = ⟨l.width, l.fields.insert call.1 call.2⟩ := by
  simp [offer, insert_eq, within]

theorem offer_of_past {l : Layout} {call : String × Field} (past : l.width < call.2.range.stop) :
    l.offer call = l := by
  simp [offer, insert_eq, Fin.not_le.2 past, Outcome.refuse]

/-- The calls that are accepted are those whose fields end within the width, and they alone are seen
in the layout after all calls. -/
theorem offerAll_eq (l : Layout) (calls : List (String × Field)) :
    l.offerAll calls = ⟨l.width, (calls.filter (·.2.range.stop ≤ l.width)).foldl
      (fun m e => m.insert e.1 e.2) l.fields⟩ := by
  unfold offerAll
  induction calls generalizing l with
  | nil => rfl
  | cons call rest ih =>
    rw [List.foldl_cons, ih]
    by_cases within : call.2.range.stop ≤ l.width
    · simp [offer_of_within within, within]
    · simp [offer_of_past (Fin.not_le.1 within), within]

theorem offerAll_width (l : Layout) (calls : List (String × Field)) :
    (l.offerAll calls).width = l.width := by
  rw [offerAll_eq]

/-- The last accepted call of a name has set its field; a name without one keeps its field. -/
theorem get?_offerAll (l : Layout) (calls : List (String × Field)) (name : String) :
    (l.offerAll calls).get? name =
      ((calls.filter fun e => e.1 = name ∧ e.2.range.stop ≤ l.width).getLast?.map Prod.snd).or
        (l.get? name) := by
  have both : (calls.filter (·.2.range.stop ≤ l.width)).filter (·.1 = name) =
      calls.filter fun e => e.1 = name ∧ e.2.range.stop ≤ l.width := by
    simp [List.filter_filter]
  rw [offerAll_eq, get?, NameMap.get?_foldl_insert, NameMap.lookup_reverse, both]
  rfl

theorem ext_of_get? {l m : Layout} (width : l.width = m.width)
    (fields : ∀ name, l.get? name = m.get? name) : l = m := by
  have sameFields : l.fields = m.fields := NameMap.ext fields
  cases l
  cases m
  simp_all

/-- Only the order of calls of one name matters. -/
theorem offerAll_congr (l : Layout) {calls others : List (String × Field)}
    (same : ∀ name, others.filter (·.1 = name) = calls.filter (·.1 = name)) :
    l.offerAll others = l.offerAll calls := by
  have accepted (calls : List (String × Field)) (name : String) :
      (calls.filter fun e => e.1 = name ∧ e.2.range.stop ≤ l.width) =
        (calls.filter (·.1 = name)).filter (·.2.range.stop ≤ l.width) := by
    simp [List.filter_filter, Bool.and_comm]
  apply ext_of_get?
  · rw [offerAll_width, offerAll_width]
  · intro name
    rw [get?_offerAll, get?_offerAll, accepted, accepted, same]

/-- What is decoded of fields: all of them, or the refusal of the first that is past the word. -/
theorem decodeFields_value (w : Word s) (fields : List (String × Field)) :
    (decodeFields w fields).value =
      (fields.find? fun e => s.width < e.2.range.stop).elim (.ok (fields.map (entryIn w)))
        fun e => .refuse (.inField e.1 (.outside e.2.range.stop s.width)) := by
  rcases within_or_first_past s.width fields with within | ⟨before, e, after, rfl, within, past⟩
  · have none : (fields.find? fun e => s.width < e.2.range.stop) = none := by simpa using within
    rw [decodeFields_of_within w fields within, none]
    rfl
  · have first : ((before ++ e :: after).find? fun e => s.width < e.2.range.stop) = some e := by
      rw [List.find?_eq_some_iff_append]
      exact ⟨by simpa using past, before, after, rfl, by simpa using within⟩
    rw [decodeFields_of_past w within past, first]
    rfl

/-- What `grown` decodes of a word is what `l` does, the entry of one field put in its place. -/
structure PutsEntry (l grown : Layout) (name : String) (field : Field) (w : Word s) : Prop where
  /-- A word of another width is refused as before. -/
  otherWidth : s.width ≠ l.width → grown.decode w = l.decode w
  /-- The same fields are walked below the name and above it, with the same values, refusals and
  records. -/
  walk : s.width = l.width → ∃ before behind : List (String × Field),
    (∀ e ∈ before, Text.bytes e.1 < Text.bytes name) ∧
    (∀ e ∈ behind, Text.bytes name < Text.bytes e.1) ∧
    l.decode w = decodeFields w (before ++ ((l.get? name).map (name, ·)).toList ++ behind) ∧
    grown.decode w = decodeFields w (before ++ (name, field) :: behind)
  /-- All other entries stay, and the one of the name stands between those below and above it. -/
  decoded : ∀ entries, (l.decode w).value = .ok entries → ∃ before behind value,
    entries.filter (·.name ≠ name) = before ++ behind ∧
    (∀ entry ∈ before, Text.bytes entry.name < Text.bytes name) ∧
    (∀ entry ∈ behind, Text.bytes name < Text.bytes entry.name) ∧
    field.value w = .ok value ∧
    (grown.decode w).value = .ok (before ++ ⟨name, field.range, value⟩ :: behind)
  /-- Another field that was refused is refused still. -/
  refused : ∀ other error, other ≠ name → (l.decode w).value = .refuse (.inField other error) →
    (grown.decode w).value = .refuse (.inField other error)

/-- Entries of other names are all that is left when the one of a name is taken out. -/
theorem filter_entries (w : Word s) {name : String} {before behind : List (String × Field)}
    (below : ∀ e ∈ before, e.1 < name) (above : ∀ e ∈ behind, name < e.1) (old : Option Field) :
    ((before ++ (old.map (name, ·)).toList ++ behind).map (entryIn w)).filter (·.name ≠ name) =
      before.map (entryIn w) ++ behind.map (entryIn w) := by
  have others (fields : List (String × Field)) (apart : ∀ e ∈ fields, e.1 ≠ name) :
      (fields.map (entryIn w)).filter (·.name ≠ name) = fields.map (entryIn w) := by
    rw [List.filter_eq_self]
    intro entry mem
    obtain ⟨e, inFields, rfl⟩ := List.mem_map.1 mem
    rw [decide_eq_true_iff]
    exact apart e inFields
  have own : ((old.map (name, ·)).toList.map (entryIn w)).filter (·.name ≠ name) = [] := by
    cases old <;> simp [entryIn]
  have apartBefore : ∀ e ∈ before, e.1 ≠ name := fun e mem same =>
    String.lt_irrefl _ (same ▸ below e mem)
  have apartBehind : ∀ e ∈ behind, e.1 ≠ name := fun e mem same =>
    String.lt_irrefl _ (same ▸ above e mem)
  rw [List.map_append, List.map_append, List.filter_append, List.filter_append,
    others before apartBefore, own, others behind apartBehind, List.append_nil]

/-- A field within the word at the place of a name does not hide that another one is past it. -/
theorem find?_past_of_other {before behind : List (String × Field)} {name : String}
    {width : Position} {field : Field} (within : field.range.stop ≤ width) {old : Option Field}
    {e : String × Field} (other : e.1 ≠ name)
    (found : ((before ++ (old.map (name, ·)).toList ++ behind).find? fun e =>
      width < e.2.range.stop) = some e) :
    ((before ++ (name, field) :: behind).find? fun e => width < e.2.range.stop) = some e := by
  rw [List.find?_append, List.find?_append] at found
  rw [List.find?_append, List.find?_cons_of_neg (by simpa using within)]
  cases isBefore : before.find? fun e => width < e.2.range.stop with
  | some first => simpa [isBefore] using found
  | none =>
    cases isOld : (old.map (name, ·)).toList.find? fun e => width < e.2.range.stop with
    | none => simpa [isBefore, isOld] using found
    | some own =>
      have same : own = e := by simpa [isBefore, isOld] using found
      have isOwn : own.1 = name := by
        have mem := List.mem_of_find?_eq_some isOld
        cases old with
        | none => simp at mem
        | some field =>
          rw [Option.map_some, Option.toList_some, List.mem_singleton] at mem
          rw [mem]
      exact absurd (same ▸ isOwn) other

/-- An accepted call for a name: the fields below the name and above it stay, and between them
stands the field in place of the one that the name had, if it had one. -/
structure PutsField (l grown : Layout) (name : String) (field : Field)
    (before behind : List (String × Field)) : Prop where
  width : grown.width = l.width
  within : field.range.stop ≤ l.width
  below : ∀ e ∈ before, e.1 < name
  above : ∀ e ∈ behind, name < e.1
  old : l.fields.entries = before ++ ((l.get? name).map (name, ·)).toList ++ behind
  new : grown.fields.entries = before ++ (name, field) :: behind

theorem putsField_of_insert {l grown : Layout} {name : String} {field : Field}
    (made : l.insert name field = .ok grown) :
    ∃ before behind, PutsField l grown name field before behind := by
  obtain ⟨within, rfl⟩ := insert_eq_ok_iff.1 made
  obtain ⟨before, behind, below, above, whole, inserted⟩ :=
    NameMap.insertEntry_split name l.fields.sorted
  exact ⟨before, behind, rfl, within, below, above, whole, inserted field⟩

namespace PutsField

variable {l grown : Layout} {name : String} {field : Field} {before behind : List (String × Field)}
  (puts : PutsField l grown name field before behind) (w : Word s)

include puts

theorem decode_old (same : s.width = l.width) :
    l.decode w = decodeFields w (before ++ ((l.get? name).map (name, ·)).toList ++ behind) := by
  rw [decode_of_width same, puts.old]

theorem decode_new (same : s.width = l.width) :
    grown.decode w = decodeFields w (before ++ (name, field) :: behind) := by
  rw [decode_of_width (same.trans puts.width.symm), puts.new]

theorem decode_other (other : s.width ≠ l.width) : grown.decode w = l.decode w := by
  rw [decode_of_other_width other, decode_of_other_width (puts.width ▸ other), puts.width]

theorem decoded (same : s.width = l.width) {entries : List Entry}
    (isDecoded : (l.decode w).value = .ok entries) :
    entries.filter (·.name ≠ name) = before.map (entryIn w) ++ behind.map (entryIn w) ∧
      field.value w = .ok (field.valueIn w) ∧
      (grown.decode w).value =
        .ok (before.map (entryIn w) ++ entryIn w (name, field) :: behind.map (entryIn w)) := by
  obtain ⟨allWithin, isEntries⟩ := (decode_eq_ok_iff same w).1 isDecoded
  have fits : field.range.stop ≤ s.width := same ▸ puts.within
  have grownWithin : ∀ e ∈ before ++ (name, field) :: behind, e.2.range.stop ≤ s.width := by
    intro e mem
    rcases List.mem_append.1 mem with inBefore | inRest
    · exact allWithin e (by simp [puts.old, inBefore])
    · rcases List.mem_cons.1 inRest with rfl | inBehind
      · exact fits
      · exact allWithin e (by simp [puts.old, inBehind])
  refine ⟨?_, ?_, ?_⟩
  · rw [isEntries, puts.old, filter_entries w puts.below puts.above]
  · rw [Field.value_eq, if_pos fits]
  · rw [puts.decode_new w same, decodeFields_of_within w _ grownWithin, List.map_append,
      List.map_cons]

theorem refused (same : s.width = l.width) {other : String} {error : RangeError}
    (apart : other ≠ name) (wasRefused : (l.decode w).value = .refuse (.inField other error)) :
    (grown.decode w).value = .refuse (.inField other error) := by
  have fits : field.range.stop ≤ s.width := same ▸ puts.within
  rw [puts.decode_old w same, decodeFields_value] at wasRefused
  rw [puts.decode_new w same, decodeFields_value]
  cases found : (before ++ ((l.get? name).map (name, ·)).toList ++ behind).find? fun e =>
      s.width < e.2.range.stop with
  | none =>
    rw [found] at wasRefused
    cases wasRefused
  | some e =>
    rw [found] at wasRefused
    cases wasRefused
    rw [find?_past_of_other fits apart found]
    rfl

end PutsField

theorem putsEntry_of_insert {l grown : Layout} {name : String} {field : Field}
    (made : l.insert name field = .ok grown) (w : Word s) : l.PutsEntry grown name field w := by
  obtain ⟨before, behind, puts⟩ := putsField_of_insert made
  have belowBytes : ∀ e ∈ before, Text.bytes e.1 < Text.bytes name := fun e mem =>
    Text.lt_iff_bytes_lt.1 (puts.below e mem)
  have aboveBytes : ∀ e ∈ behind, Text.bytes name < Text.bytes e.1 := fun e mem =>
    Text.lt_iff_bytes_lt.1 (puts.above e mem)
  by_cases same : s.width = l.width
  · refine ⟨fun other => absurd same other, fun _ => ?_, fun entries isDecoded => ?_,
      fun other error apart wasRefused => puts.refused w same apart wasRefused⟩
    · exact ⟨before, behind, belowBytes, aboveBytes, puts.decode_old w same, puts.decode_new w same⟩
    · obtain ⟨others, value, placed⟩ := puts.decoded w same isDecoded
      refine ⟨before.map (entryIn w), behind.map (entryIn w), field.valueIn w, others, ?_, ?_,
        value, placed⟩
      · rw [List.forall_mem_map]
        exact belowBytes
      · rw [List.forall_mem_map]
        exact aboveBytes
  -- a word of another width is refused for its width, so nothing is decoded or refused for a field
  · have refused := decode_of_other_width same w
    refine ⟨fun _ => puts.decode_other w same, fun width => absurd width same,
      fun entries isDecoded => ?_, fun other error _ wasRefused => ?_⟩
    · rw [refused] at isDecoded
      cases isDecoded
    · rw [refused] at wasRefused
      cases wasRefused

/-- Adding fields to a layout, one call after the other: a call is refused if and only if its field
ends past the width, whatever calls came before. After all calls the layout has its width, and under
each name the field of the last accepted call, or else the field that it had. So calls in another
order, those of each name in the same order, make the same layout, which is written and decodes
alike. The fields stand in the byte order of their names, each name once. One accepted call changes
what is decoded of a word only in the entry of its own name. -/
theorem calls_update_fields (l : Layout) (calls : List (String × Field)) :
    (∀ name field,
      ((l.offerAll calls).insert name field =
          .refuse (.inField name (.outside field.range.stop l.width)) ↔
        l.width < field.range.stop) ∧
      ((∃ grown, (l.offerAll calls).insert name field = .ok grown) ↔
        field.range.stop ≤ l.width)) ∧
    ((l.offerAll calls).width = l.width ∧
      ∀ name, (l.offerAll calls).get? name =
        ((calls.filter fun e => e.1 = name ∧ e.2.range.stop ≤ l.width).getLast?.map Prod.snd).or
          (l.get? name)) ∧
    (∀ others : List (String × Field),
      (∀ name, others.filter (·.1 = name) = calls.filter (·.1 = name)) →
        l.offerAll others = l.offerAll calls ∧
        (l.offerAll others).render = (l.offerAll calls).render ∧
        ∀ (s : WordSize) (w : Word s),
          (l.offerAll others).decode w = (l.offerAll calls).decode w) ∧
    ((l.offerAll calls).fields.entries.Pairwise (fun a b => Text.bytes a.1 < Text.bytes b.1) ∧
      ∀ name field, (name, field) ∈ (l.offerAll calls).fields.entries ↔
        (l.offerAll calls).get? name = some field) ∧
    (∀ name field grown, l.insert name field = .ok grown →
      ∀ (s : WordSize) (w : Word s), l.PutsEntry grown name field w) := by
  refine ⟨?_, ⟨offerAll_width l calls, get?_offerAll l calls⟩, ?_, ⟨?_, ?_⟩, ?_⟩
  · intro name field
    rw [insert_eq, offerAll_width]
    by_cases within : field.range.stop ≤ l.width
    · simp [within, Fin.not_lt.2 within, Outcome.refuse]
    · simp [within, Fin.not_le.1 within, Outcome.refuse]
  · intro others sameOrder
    have same := l.offerAll_congr sameOrder
    rw [same]
    exact ⟨rfl, rfl, fun _ _ => rfl⟩
  · exact (l.offerAll calls).fields.sorted.imp Text.lt_iff_bytes_lt.1
  · intro name field
    exact NameMap.get?_eq_some_iff.symm
  · intro name field grown made s w
    exact putsEntry_of_insert made w

/-- A byte with a field `m`: a call for `a` that ends past it is refused, the later one of two calls
for `m` counts, and calls for other names may come in any order. A field `b` that is added after
that is decoded between `a` and `m`, which stay. -/
theorem byte_built_by_calls :
    let field (start stop : Position) (ordered : start < stop) : Field :=
      ⟨⟨start, stop, ordered⟩, false⟩
    let low := field ⟨0, by decide⟩ ⟨4, by decide⟩ (by decide)
    let high := field ⟨4, by decide⟩ ⟨8, by decide⟩ (by decide)
    let long := field ⟨4, by decide⟩ ⟨9, by decide⟩ (by decide)
    let l : Layout := ⟨WordSize.b8.width, ⟨[("m", low)], by decide⟩⟩
    let calls := [("m", low), ("a", long), ("a", low), ("m", high)]
    let w : Word .b8 := 0xab#8
    (l.offerAll calls).get? "m" = some high ∧
    l.offerAll [("a", long), ("m", low), ("m", high), ("a", low)] = l.offerAll calls ∧
    (∃ grown, (l.offerAll calls).insert "b" low = .ok grown ∧ ∃ before behind value,
      [⟨"a", low.range, .unsigned 0xb⟩, ⟨"m", high.range, .unsigned 0xa⟩] = before ++ behind ∧
      (grown.decode w).value = .ok (before ++ ⟨"b", low.range, value⟩ :: behind)) := by
  intro field low high long l calls w
  obtain ⟨-, ⟨-, last⟩, anyOrder, -, -⟩ := calls_update_fields l calls
  obtain ⟨accepts, -, -, -, puts⟩ := calls_update_fields (l.offerAll calls) []
  refine ⟨(last "m").trans (by decide), ?_, ?_⟩
  · refine (anyOrder [("a", long), ("m", low), ("m", high), ("a", low)] ?_).1
    intro name
    by_cases isA : name = "a"
    · subst isA
      decide
    · by_cases isM : name = "m"
      · subst isM
        decide
      · simp [calls, Ne.symm isA, Ne.symm isM]
  · obtain ⟨grown, made⟩ := (accepts "b" low).2.2 (by decide)
    have decoded := (puts "b" low grown made .b8 w).decoded
      [⟨"a", low.range, .unsigned 0xb⟩, ⟨"m", high.range, .unsigned 0xa⟩] (by decide)
    obtain ⟨before, behind, value, others, -, -, -, placed⟩ := decoded
    exact ⟨grown, made, before, behind, value, others, placed⟩

end Layout

end WordFields
