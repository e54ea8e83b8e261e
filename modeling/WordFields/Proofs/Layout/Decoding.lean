import WordFields.Layout.Basic
import WordFields.Proofs.NameMap
import WordFields.Proofs.Word.Bits

/-!
# Decoding a word

A field that lies within the word has a value: its bits, read as the sign rule says. Decoding takes
the fields in name order, up to the first that does not lie within the word; a valid layout decodes
every word of its width into one entry for each field.
-/

set_option autoImplicit false

namespace WordFields

variable {s : WordSize}

/-- The bits of the field as a number of their own, by the field's sign rule. -/
def Field.valueIn (f : Field) (w : Word s) : Value :=
  let raw := BitVec.extractLsb' f.range.start.val f.range.length.val w
  if f.signed then .signed raw.toInt else .unsigned (raw.setWidth WordSize.b128.bits)

/-- Widening before the sign extension loses nothing: the length of a range within the word is at
most 128. -/
theorem Word.setWidth_part (w : Word s) {r : BitRange} (within : r.stop ≤ s.width) :
    BitVec.setWidth r.length.val (w.part r).zeroExtend =
      BitVec.extractLsb' r.start.val r.length.val w := by
  refine BitVec.eq_of_getLsbD_eq fun i small => ?_
  rw [BitVec.getLsbD_setWidth, zeroExtend_bit, part_bit w within, BitVec.getLsbD_extractLsb']
  simp only [small, decide_true, Bool.true_and]

theorem Word.zeroExtend_part (w : Word s) {r : BitRange} (within : r.stop ≤ s.width) :
    (w.part r).zeroExtend =
      BitVec.setWidth WordSize.b128.bits (BitVec.extractLsb' r.start.val r.length.val w) := by
  refine BitVec.eq_of_getLsbD_eq fun i inWord => ?_
  rw [zeroExtend_bit, part_bit w within, BitVec.getLsbD_setWidth, BitVec.getLsbD_extractLsb']
  simp only [inWord, decide_true, Bool.true_and]

/-- The bits of a range do not depend on the word around them, nor on its size. -/
theorem extract_congr {t : WordSize} (v : Word s) (w : Word t) (r : BitRange)
    (agree : ∀ i : Position, r.contains i = true → v.getLsbD i.val = w.getLsbD i.val) :
    BitVec.extractLsb' r.start.val r.length.val v =
      BitVec.extractLsb' r.start.val r.length.val w := by
  refine BitVec.eq_of_getLsbD_eq fun k small => ?_
  obtain ⟨i, inRange, place⟩ := BitRange.exists_contains small
  rw [BitVec.getLsbD_extractLsb', BitVec.getLsbD_extractLsb', ← place, agree i inRange]

theorem Field.value_eq (f : Field) (w : Word s) :
    f.value w = if f.range.stop ≤ s.width then .ok (f.valueIn w)
      else .refuse (.outside f.range.stop s.width) := by
  unfold Field.value
  rw [Word.slice_eq]
  split
  · rename_i within
    rw [ok_bind]
    have accepted := Word.length_accepted (Word.within_widest within)
    cases signed : f.signed with
    | true =>
      rw [if_pos rfl, Word.lowSigned_eq, if_neg accepted, Outcome.demand_ok, ok_bind,
        Word.setWidth_part w within]
      simp [valueIn, signed]
      rfl
    | false =>
      rw [if_neg (by simp), Word.zeroExtend_part w within]
      simp [valueIn, signed]
      rfl
  · rfl

theorem Entry.text_eq (e : Entry) :
    e.text = s!"{e.name} [{e.range.start.val}..{e.range.stop.val}] = {e.value.text}" := by
  simp only [Entry.text, BitRange.text, toString, String.append_assoc]

/-- The record of an entry that is decoded. -/
def Entry.record (e : Entry) : LogRecord := ⟨.trace, e.text⟩

namespace Layout

/-- The entry of a field of the word. -/
def entryIn (w : Word s) (e : String × Field) : Entry := ⟨e.1, e.2.range, e.2.valueIn w⟩

theorem fieldValue_of_within (w : Word s) (name : String) {field : Field}
    (within : field.range.stop ≤ s.width) :
    fieldValue w name field = .ok (field.valueIn w) := by
  rw [fieldValue, Field.value_eq, if_pos within]
  rfl

theorem fieldValue_of_past (w : Word s) (name : String) {field : Field}
    (past : s.width < field.range.stop) :
    fieldValue w name field = .refuse (.inField name (.outside field.range.stop s.width)) := by
  rw [fieldValue, Field.value_eq, if_neg (Fin.not_le.2 past)]
  rfl

/-- What is logged of a field is the text that its entry has. -/
theorem fieldRecord_eq (name : String) (range : BitRange) (value : Value) :
    fieldRecord name range value = (⟨name, range, value⟩ : Entry).record := rfl

/-- A field with a value is told first, and then the others decide. -/
theorem decodeFields_of_value (w : Word s) {name : String} {field : Field} {value : Value}
    (decoded : fieldValue w name field = .ok value) (rest : List (String × Field)) :
    decodeFields w ((name, field) :: rest) =
      ⟨(decodeFields w rest).value.map (⟨name, field.range, value⟩ :: ·),
        (⟨name, field.range, value⟩ : Entry).record :: (decodeFields w rest).log⟩ := by
  rw [decodeFields, decoded]
  dsimp only
  rw [fieldRecord_eq]

/-- Fields within the word are decoded, and then the others decide. -/
theorem decodeFields_append (w : Word s) {fields : List (String × Field)}
    (within : ∀ e ∈ fields, e.2.range.stop ≤ s.width) (others : List (String × Field)) :
    decodeFields w (fields ++ others) =
      ⟨(decodeFields w others).value.map (fields.map (entryIn w) ++ ·),
        (fields.map (entryIn w)).map Entry.record ++ (decodeFields w others).log⟩ := by
  induction fields with
  | nil =>
    cases value : (decodeFields w others).value with
    | error failure => simp [Except.map, ← value]
    | ok entries => simp [Except.map, ← value]
  | cons first rest ih =>
    obtain ⟨name, field⟩ := first
    have fits := within (name, field) List.mem_cons_self
    have behind := ih fun e mem => within e (List.mem_cons_of_mem _ mem)
    rw [List.cons_append, decodeFields_of_value w (fieldValue_of_within w name fits), behind]
    cases (decodeFields w others).value with
    | error failure => rfl
    | ok entries => rfl

theorem decodeFields_of_within (w : Word s) (fields : List (String × Field))
    (within : ∀ e ∈ fields, e.2.range.stop ≤ s.width) :
    decodeFields w fields = ⟨.ok (fields.map (entryIn w)),
      (fields.map (entryIn w)).map Entry.record⟩ := by
  have all := decodeFields_append w within []
  simpa [decodeFields, Logged.quiet, Except.map] using all

/-- The first field past the word ends the decoding, whatever fields come behind it. -/
theorem decodeFields_of_past (w : Word s) {before : List (String × Field)}
    (within : ∀ e ∈ before, e.2.range.stop ≤ s.width) {e : String × Field}
    (past : s.width < e.2.range.stop) (after : List (String × Field)) :
    decodeFields w (before ++ e :: after) =
      ⟨.refuse (.inField e.1 (.outside e.2.range.stop s.width)),
        (before.map (entryIn w)).map Entry.record⟩ := by
  rw [decodeFields_append w within, decodeFields, fieldValue_of_past w e.1 past]
  simp [Outcome.refuse, Logged.quiet, Except.map]

variable {l : Layout}

theorem decode_of_width (same : s.width = l.width) (w : Word s) :
    l.decode w = decodeFields w l.fields.entries := by
  rw [decode, checkWord, if_pos same]

theorem decode_of_other_width (other : s.width ≠ l.width) (w : Word s) :
    l.decode w = .quiet (.refuse (.wordWidth l.width s.width)) := by
  rw [decode, checkWord, if_neg other]
  rfl

theorem valueOf_of_other_width (other : s.width ≠ l.width) (w : Word s) (name : String) :
    l.valueOf w name = .refuse (.wordWidth l.width s.width) := by
  rw [valueOf, checkWord, if_neg other]
  rfl

/-- A single field is decoded as if it were alone. -/
theorem valueOf_of_width (same : s.width = l.width) (w : Word s) (name : String) :
    l.valueOf w name =
      match l.get? name with
      | none => .ok none
      | some field =>
        if field.range.stop ≤ s.width then .ok (some (field.valueIn w))
        else .refuse (.inField name (.outside field.range.stop s.width)) := by
  unfold valueOf checkWord
  rw [if_pos same, ok_bind]
  cases l.get? name with
  | none => rfl
  | some field =>
    dsimp only
    split
    next within =>
      rw [fieldValue_of_within w name within]
      rfl
    next past =>
      rw [fieldValue_of_past w name (Fin.not_le.1 past)]
      rfl

/-- The width is one that words have, and every field is a proper range within it. -/
structure Valid (l : Layout) : Prop where
  supported : l.width ∈ supportedWidths
  within : ∀ e ∈ l.fields.entries, e.2.range.stop ≤ l.width

theorem val_of_supported {width : Position} (supported : width ∈ supportedWidths) :
    width.val ∈ [8, 16, 32, 64, 128] := by
  obtain ⟨s, mem, rfl⟩ := List.mem_map.1 supported
  exact List.mem_map_of_mem (f := WordSize.bits) mem

theorem decode_of_valid (valid : l.Valid) (same : s.width = l.width) (w : Word s) :
    l.decode w = ⟨.ok (l.fields.entries.map (entryIn w)),
      (l.fields.entries.map (entryIn w)).map Entry.record⟩ := by
  have within : ∀ e ∈ l.fields.entries, e.2.range.stop ≤ s.width := by
    rw [same]
    exact valid.within
  rw [decode_of_width same]
  exact decodeFields_of_within w _ within

theorem valueOf_of_valid (valid : l.Valid) (same : s.width = l.width) (w : Word s) (name : String) :
    l.valueOf w name = .ok ((l.get? name).map fun field => field.valueIn w) := by
  rw [valueOf_of_width same]
  cases found : l.get? name with
  | none => rfl
  | some field =>
    have within : field.range.stop ≤ s.width := by
      rw [same]
      exact valid.within (name, field) (NameMap.get?_eq_some_iff.1 found)
    dsimp only
    rw [if_pos within]
    rfl

end Layout

end WordFields
