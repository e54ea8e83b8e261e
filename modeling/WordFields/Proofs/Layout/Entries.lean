import WordFields.Proofs.Layout.Decoding
import WordFields.Proofs.Text.ByteOrder

/-!
# The entries of a word, its fields one by one, and the records

Nothing is assumed of the layout here: it may have any width, and fields past it. A word is decoded
as far as its fields lie within it, and what is decoded, what is logged and what a single field
gives are the same values. The first field past the word decides the error.
-/

set_option autoImplicit false

namespace WordFields.Layout

variable {s : WordSize} {l : Layout}

/-- The entries are these fields, in their order, each with the value that its name alone gives. -/
structure Tells (l : Layout) (w : Word s) (fields : List (String × Field))
    (entries : List Entry) : Prop where
  fields_eq : entries.map (fun entry => (entry.name, entry.range)) =
    fields.map fun e => (e.1, e.2.range)
  value : ∀ entry ∈ entries, l.valueOf w entry.name = .ok (some entry.value)

theorem valueOf_eq_error_iff (same : s.width = l.width) (w : Word s) {name : String}
    {failure : Failure LayoutError} :
    l.valueOf w name = .error failure ↔
      ∃ field, l.get? name = some field ∧ s.width < field.range.stop ∧
        failure = .refusal (.inField name (.outside field.range.stop s.width)) := by
  rw [valueOf_of_width same]
  cases l.get? name with
  | none => simp
  | some field =>
    by_cases within : field.range.stop ≤ s.width
    · simp [within, Fin.not_lt.2 within]
    · simp [within, Fin.not_le.1 within, Outcome.refuse, eq_comm]

theorem valueOf_eq_none_iff (same : s.width = l.width) (w : Word s) {name : String} :
    l.valueOf w name = .ok none ↔ l.get? name = none := by
  rw [valueOf_of_width same]
  cases l.get? name with
  | none => simp
  | some field =>
    by_cases within : field.range.stop ≤ s.width
    · simp [within]
    · simp [within, Outcome.refuse]

/-- The entries of fields within the word are told by their names. -/
theorem tells_of_within (same : s.width = l.width) (w : Word s) {fields : List (String × Field)}
    (inLayout : ∀ e ∈ fields, e ∈ l.fields.entries)
    (within : ∀ e ∈ fields, e.2.range.stop ≤ s.width) :
    l.Tells w fields (fields.map (entryIn w)) where
  fields_eq := by
    rw [List.map_map]
    rfl
  value := by
    intro entry mem
    obtain ⟨e, inFields, rfl⟩ := List.mem_map.1 mem
    have found : l.get? e.1 = some e.2 := NameMap.get?_eq_some_iff.2 (inLayout e inFields)
    rw [valueOf_of_width same, entryIn, found]
    dsimp only
    rw [if_pos (within e inFields)]

/-- Fields are all within a width, or there is a first one past it. -/
theorem within_or_first_past (width : Position) (fields : List (String × Field)) :
    (∀ e ∈ fields, e.2.range.stop ≤ width) ∨
      ∃ before e after, fields = before ++ e :: after ∧
        (∀ f ∈ before, f.2.range.stop ≤ width) ∧ width < e.2.range.stop := by
  cases found : fields.find? fun e => width < e.2.range.stop with
  | none =>
    left
    simpa using found
  | some e =>
    right
    obtain ⟨past, before, after, split, within⟩ := List.find?_eq_some_iff_append.1 found
    exact ⟨before, e, after, split, by simpa using within, by simpa using past⟩

theorem decode_of_past (same : s.width = l.width) (w : Word s)
    {before after : List (String × Field)} {e : String × Field}
    (split : l.fields.entries = before ++ e :: after)
    (within : ∀ f ∈ before, f.2.range.stop ≤ s.width) (past : s.width < e.2.range.stop) :
    l.decode w = ⟨.refuse (.inField e.1 (.outside e.2.range.stop s.width)),
      (before.map (entryIn w)).map Entry.record⟩ := by
  rw [decode_of_width same, split, decodeFields_of_past w within past]

/-- Decoding succeeds exactly for fields that all lie within the word. -/
theorem decode_eq_ok_iff (same : s.width = l.width) (w : Word s) {entries : List Entry} :
    (l.decode w).value = .ok entries ↔
      (∀ e ∈ l.fields.entries, e.2.range.stop ≤ s.width) ∧
        entries = l.fields.entries.map (entryIn w) := by
  rcases within_or_first_past s.width l.fields.entries with
    within | ⟨before, e, after, split, within, past⟩
  · rw [decode_of_width same, decodeFields_of_within w _ within]
    constructor
    · intro decoded
      exact ⟨within, (Except.ok.inj decoded).symm⟩
    · rintro ⟨-, rfl⟩
      rfl
  · rw [decode_of_past same w split within past]
    constructor
    · intro decoded
      cases decoded
    · rintro ⟨all, -⟩
      exact absurd (all e (by simp [split])) (Fin.not_le.2 past)

/-- A word of another width is refused, whole or field by field, and nothing is logged. For a word
of the layout's width the fields stand in the byte order of their names. The word is decoded if and
only if they all lie within it, into one entry for each of them, with the value that its name gives
alone. Otherwise the first field past the word is refused, and a single field is refused, in the
same way, if and only if it ends past the word. In every case the log has the texts of the entries
before the end of the decoding, each of them `name [start..stop] = value` with an unsigned value in
hexadecimal digits and a signed one in decimal digits. -/
theorem decode_agrees_with_fields (l : Layout) (w : Word s) :
    (s.width ≠ l.width →
      l.decode w = .quiet (.refuse (.wordWidth l.width s.width)) ∧
        ∀ name, l.valueOf w name = .refuse (.wordWidth l.width s.width)) ∧
    (s.width = l.width →
      (l.fields.entries.Pairwise fun a b => Text.bytes a.1 < Text.bytes b.1) ∧
      ((∃ entries, (l.decode w).value = .ok entries) ↔
        ∀ e ∈ l.fields.entries, e.2.range.stop ≤ s.width) ∧
      (∀ entries, (l.decode w).value = .ok entries → l.Tells w l.fields.entries entries ∧
        (l.decode w).log = entries.map fun entry => ⟨.trace, entry.text⟩) ∧
      (∀ before e after, l.fields.entries = before ++ e :: after →
        (∀ f ∈ before, f.2.range.stop ≤ s.width) → s.width < e.2.range.stop →
          (l.decode w).value = .refuse (.inField e.1 (.outside e.2.range.stop s.width)) ∧
          ∃ entries, l.Tells w before entries ∧
            (l.decode w).log = entries.map fun entry => ⟨.trace, entry.text⟩) ∧
      (∀ name failure, l.valueOf w name = .error failure ↔
        ∃ field, l.get? name = some field ∧ s.width < field.range.stop ∧
          failure = .refusal (.inField name (.outside field.range.stop s.width))) ∧
      ∀ name, l.valueOf w name = .ok none ↔ l.get? name = none) ∧
    (∀ entry : Entry, entry.text =
      s!"{entry.name} [{entry.range.start.val}..{entry.range.stop.val}] = {entry.value.text}") ∧
    (∀ v : Word .b128,
      (Value.unsigned v).text = "0x" ++ String.ofList (Nat.toDigits 16 v.toNat)) ∧
    ∀ n : Int, (Value.signed n).text = toString n := by
  refine ⟨fun other => ⟨decode_of_other_width other w, valueOf_of_other_width other w⟩,
    fun same => ⟨?_, ?_, ?_, ?_, ?_, ?_⟩, Entry.text_eq, fun _ => rfl, fun _ => rfl⟩
  · exact l.fields.sorted.imp Text.lt_iff_bytes_lt.1
  · constructor
    · rintro ⟨entries, decoded⟩
      exact ((decode_eq_ok_iff same w).1 decoded).1
    · intro within
      exact ⟨_, (decode_eq_ok_iff same w).2 ⟨within, rfl⟩⟩
  · intro entries decoded
    obtain ⟨within, rfl⟩ := (decode_eq_ok_iff same w).1 decoded
    refine ⟨tells_of_within same w (fun _ mem => mem) within, ?_⟩
    rw [decode_of_width same, decodeFields_of_within w _ within]
    rfl
  · intro before e after split within past
    rw [decode_of_past same w split within past]
    refine ⟨rfl, _, tells_of_within same w (fun f mem => ?_) within, rfl⟩
    rw [split]
    exact List.mem_append_left _ mem
  · exact fun name failure => valueOf_eq_error_iff same w
  · exact fun name => valueOf_eq_none_iff same w

/-- Of four fields of an 8-bit layout that was never validated the third ends at 70: the first two
are told and logged, the third refused alone as well, and a word of 16 bits is refused at once. -/
theorem decoded_up_to_field_past :
    let flag : String × Field := ("flag", ⟨⟨⟨7, by decide⟩, ⟨8, by decide⟩, by decide⟩, false⟩)
    let low : String × Field := ("low", ⟨⟨⟨0, by decide⟩, ⟨4, by decide⟩, by decide⟩, true⟩)
    let past : String × Field := ("past", ⟨⟨⟨4, by decide⟩, ⟨70, by decide⟩, by decide⟩, false⟩)
    let top : String × Field := ("top", ⟨⟨⟨7, by decide⟩, ⟨8, by decide⟩, by decide⟩, false⟩)
    let loose : Layout := ⟨⟨8, by decide⟩, ⟨[flag, low, past, top], by decide⟩⟩
    let refused : LayoutError := .inField "past" (.outside ⟨70, by decide⟩ ⟨8, by decide⟩)
    (loose.decode (s := .b8) 0xab#8).value = .refuse refused ∧
      loose.valueOf (s := .b8) 0xab#8 "past" = .error (.refusal refused) ∧
      (∃ entries, loose.Tells (s := .b8) 0xab#8 [flag, low] entries ∧
        (loose.decode (s := .b8) 0xab#8).log = entries.map fun entry => ⟨.trace, entry.text⟩) ∧
      (loose.decode (s := .b8) 0xab#8).log =
        [⟨.trace, "flag [7..8] = 0x1"⟩, ⟨.trace, "low [0..4] = -5"⟩] ∧
      loose.decode (s := .b16) 0x00ab#16 =
        .quiet (.refuse (.wordWidth ⟨8, by decide⟩ ⟨16, by decide⟩)) := by
  intro flag low past top loose refused
  obtain ⟨_, _, _, first, alone, _⟩ :=
    (decode_agrees_with_fields (s := .b8) loose 0xab#8).2.1 rfl
  obtain ⟨value, log⟩ := first [flag, low] past [top] rfl (by decide) (by decide)
  refine ⟨value, (alone "past" _).2 ⟨past.2, rfl, by decide, rfl⟩, log, by decide, ?_⟩
  exact ((decode_agrees_with_fields (s := .b16) loose 0x00ab#16).1 (by decide)).1

end WordFields.Layout
