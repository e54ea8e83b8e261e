import WordFields.Proofs.Layout.Decoding
import WordFields.Proofs.Layout.GivenValues
import WordFields.Proofs.Text.Messages

/-!
# Entries can be told from their lines

The name of an entry stands in its line as it is and may look like the rest of the line. A line is
therefore taken apart from its end: the value has no space in it and the range no bracket, so the
last space and the last bracket are the ones that the line itself has. What the value is shows in
its second character, since only unsigned values have an `x` there.
-/

set_option autoImplicit false

namespace WordFields

namespace Text

/-- A text is split at the last place of a character in only one way. -/
theorem append_cons_inj_of_last {c : Char} {before before' behind behind' : List Char}
    (last : c ∉ behind) (last' : c ∉ behind')
    (same : before ++ c :: behind = before' ++ c :: behind') :
    before = before' ∧ behind = behind' := by
  -- what one text has before its split beyond the other's would have `c` behind the other's
  have nothing : ∀ {more l l' : List Char}, c ∉ l → c :: l = more ++ c :: l' → more = [] := by
    intro more l l' notMem split
    cases more with
    | nil => rfl
    | cons d more =>
      refine absurd ?_ notMem
      rw [(List.cons.inj split).2]
      exact List.mem_append_right _ List.mem_cons_self
  rcases List.append_eq_append_iff.1 same with ⟨more, rfl, split⟩ | ⟨more, rfl, split⟩
  · cases nothing last split
    exact ⟨(List.append_nil _).symm, (List.cons.inj split).2⟩
  · cases nothing last' split
    exact ⟨List.append_nil _, (List.cons.inj split).2.symm⟩

theorem toDigits_injective {base : Nat} (proper : 1 < base) (small : base ≤ 16) :
    Function.Injective (Nat.toDigits base) := by
  intro m n same
  rw [← Toml.digitsValue_toDigits proper small m, same, Toml.digitsValue_toDigits proper small n]

/-- The minus sign is no digit, so a negative integer has another decimal than a natural one. -/
theorem toString_int_injective : Function.Injective (toString : Int → String) := by
  have digits : Function.Injective (Nat.toDigits 10) := toDigits_injective (by decide) (by decide)
  have noSign : ∀ {k : Nat} {rest : List Char}, Nat.toDigits 10 k ≠ '-' :: rest := by
    intro k rest starts
    exact absurd (Toml.isDigit_of_mem (starts ▸ List.mem_cons_self)) (by decide)
  intro m n same
  have chars := congrArg String.toList same
  rw [GivenValue.integer_toList, GivenValue.integer_toList] at chars
  split at chars
  · split at chars
    · have magnitudes := digits chars
      omega
    · exact absurd chars noSign
  · split at chars
    · exact absurd chars.symm noSign
    · have magnitudes := digits (List.cons.inj chars).2
      omega

end Text

namespace Value

theorem unsigned_toList (v : Word .b128) :
    (unsigned v).text.toList = '0' :: 'x' :: Nat.toDigits 16 v.toNat := by
  simp [text, hexadecimal]

/-- The text of a signed value has decimal digits, perhaps behind a minus sign. -/
theorem signed_isDecimal (v : Int) : Toml.IsDecimal (signed v).text.toList := by
  rw [text, GivenValue.integer_toList]
  split
  · exact Toml.isDecimal_toDigits _
  · exact Toml.isDecimal_minus _

theorem unsigned_text_ne_signed (v : Word .b128) (n : Int) :
    (unsigned v).text ≠ (signed n).text := by
  intro same
  have letter : 'x' ∈ (signed n).text.toList := by
    rw [← same, unsigned_toList]
    exact List.mem_cons_of_mem _ List.mem_cons_self
  exact (signed_isDecimal n).not_mem (by decide) (by decide) letter

theorem space_not_mem (v : Value) : ' ' ∉ v.text.toList := by
  cases v with
  | unsigned v =>
    rw [unsigned_toList]
    have noDigit : ' ' ∉ Nat.toDigits 16 v.toNat := fun mem =>
      absurd (Toml.digitValue_lt_of_mem (by decide) (by decide) mem) (by decide)
    simpa using noDigit
  | signed n => exact (signed_isDecimal n).not_mem (by decide) (by decide)

theorem text_injective : Function.Injective text := by
  intro v w same
  cases v with
  | unsigned v =>
    cases w with
    | unsigned w =>
      have digits := congrArg String.toList same
      rw [unsigned_toList, unsigned_toList] at digits
      have numbers : v.toNat = w.toNat :=
        Text.toDigits_injective (by decide) (by decide) (List.cons.inj (List.cons.inj digits).2).2
      rw [BitVec.eq_of_toNat_eq numbers]
    | signed n => exact absurd same (unsigned_text_ne_signed v n)
  | signed m =>
    cases w with
    | unsigned w => exact absurd same.symm (unsigned_text_ne_signed w m)
    | signed n => rw [Text.toString_int_injective same]

end Value

namespace BitRange

theorem text_bracket (r : BitRange) :
    r.text ++ "]" = Text.aroundNumbers "" ".." "]" r.start.val r.stop.val := rfl

theorem bracket_not_mem (r : BitRange) : '[' ∉ r.text.toList := by
  have noDigit : ∀ n : Nat, '[' ∉ Nat.toDigits 10 n := fun n mem =>
    absurd (Toml.isDigit_of_mem mem) (by decide)
  intro mem
  have bracketed : '[' ∈ (r.text ++ "]").toList := by
    rw [String.toList_append]
    exact List.mem_append_left _ mem
  rw [text_bracket, Text.aroundNumbers_toList] at bracketed
  simp [noDigit] at bracketed

/-- Both numbers of a range can be read off its text: points are behind the first one, and nothing
behind the second. -/
theorem text_injective : Function.Injective text := by
  intro r q same
  have numbers : Text.aroundNumbers "" ".." "]" r.start.val r.stop.val =
      Text.aroundNumbers "" ".." "]" q.start.val q.stop.val := congrArg (· ++ "]") same
  obtain ⟨sameStart, sameStop⟩ :=
    Text.aroundNumbers_inj ⟨'.', _, rfl, rfl⟩ ⟨']', _, rfl, rfl⟩ numbers
  obtain ⟨start, stop, _⟩ := r
  obtain ⟨otherStart, otherStop, _⟩ := q
  cases Fin.ext sameStart
  cases Fin.ext sameStop
  rfl

end BitRange

namespace Entry

theorem text_toList (e : Entry) :
    e.text.toList = (e.name.toList ++ [' ']) ++ '[' :: (e.range.text.toList ++ [']', ' ', '=']) ++
      ' ' :: e.value.text.toList := by
  simp [text, toString]

theorem text_injective : Function.Injective text := by
  intro d e same
  have chars := congrArg String.toList same
  rw [text_toList, text_toList] at chars
  obtain ⟨front, values⟩ :=
    Text.append_cons_inj_of_last d.value.space_not_mem e.value.space_not_mem chars
  have noBracket : ∀ r : BitRange, '[' ∉ r.text.toList ++ [']', ' ', '='] := fun r => by
    simpa using r.bracket_not_mem
  obtain ⟨names, ranges⟩ :=
    Text.append_cons_inj_of_last (noBracket d.range) (noBracket e.range) front
  have sameName : d.name = e.name := String.toList_inj.1 (List.append_cancel_right names)
  have sameRange : d.range = e.range :=
    BitRange.text_injective (String.toList_inj.1 (List.append_cancel_right ranges))
  have sameValue : d.value = e.value := Value.text_injective (String.toList_inj.1 values)
  obtain ⟨name, range, value⟩ := d
  cases sameName
  cases sameRange
  cases sameValue
  rfl

theorem record_injective : Function.Injective record := fun _ _ same =>
  text_injective (congrArg LogRecord.text same)

end Entry

namespace Layout

variable {s : WordSize}

theorem decodeFields_log (w : Word s) (fields : List (String × Field)) :
    ∃ traced : List Entry, (decodeFields w fields).log = traced.map Entry.record ∧
      ∀ entries, (decodeFields w fields).value = .ok entries → entries = traced := by
  induction fields with
  | nil => exact ⟨[], rfl, fun entries decoded => (Except.ok.inj decoded).symm⟩
  | cons first rest ih =>
    obtain ⟨name, field⟩ := first
    obtain ⟨traced, log, told⟩ := ih
    cases isValue : fieldValue w name field with
    | error failure =>
      rw [decodeFields, isValue]
      refine ⟨[], rfl, fun entries decoded => ?_⟩
      cases decoded
    | ok value =>
      rw [decodeFields_of_value w isValue]
      refine ⟨⟨name, field.range, value⟩ :: traced, congrArg _ log, fun entries decoded => ?_⟩
      dsimp only at decoded
      cases others : (decodeFields w rest).value with
      | error failure =>
        rw [others] at decoded
        cases decoded
      | ok later =>
        rw [others] at decoded
        rw [← Except.ok.inj decoded, told later others]

/-- What is logged while a word is decoded are the records of entries, and if it is decoded these
are all of its entries. -/
theorem decode_log (l : Layout) (w : Word s) :
    ∃ traced : List Entry, (l.decode w).log = traced.map Entry.record ∧
      ∀ entries, (l.decode w).value = .ok entries → entries = traced := by
  unfold decode
  split
  · exact decodeFields_log w l.fields.entries
  · refine ⟨[], rfl, fun entries decoded => ?_⟩
    cases decoded

end Layout

/-- Two entries with the same line are the same, whatever their names are. What two decodings have
logged is therefore the same exactly if they have decoded the same entries, of whatever layouts and
words. -/
theorem Entry.told_by_lines :
    (∀ d e : Entry, d.text = e.text → d = e) ∧
    ∀ {s t : WordSize} (l k : Layout) (v : Word s) (w : Word t) (entries others : List Entry),
      (l.decode v).value = .ok entries → (k.decode w).value = .ok others →
        ((l.decode v).log = (k.decode w).log ↔ entries = others) := by
  refine ⟨fun d e same => Entry.text_injective same, ?_⟩
  intro s t l k v w entries others decoded otherDecoded
  obtain ⟨traced, log, told⟩ := l.decode_log v
  obtain ⟨otherTraced, otherLog, otherTold⟩ := k.decode_log w
  rw [log, otherLog, told entries decoded, otherTold others otherDecoded]
  exact (List.map_injective_iff.2 Entry.record_injective).eq_iff

/-- A field has a name that looks like a line of a field `a`. Two layouts of different widths log
the same for two words that agree in it, and something else for another word. -/
theorem Entry.told_by_line_of_misleading_name :
    let name := "a [0..4] = 0x1"
    let field : Field := ⟨⟨⟨4, by decide⟩, ⟨8, by decide⟩, by decide⟩, true⟩
    let narrow : Layout := ⟨⟨8, by decide⟩, ⟨[(name, field)], by decide⟩⟩
    let wide : Layout := ⟨⟨16, by decide⟩, ⟨[(name, field)], by decide⟩⟩
    (⟨name, field.range, .signed (-2)⟩ : Entry).text = "a [0..4] = 0x1 [4..8] = -2" ∧
      (narrow.decode (s := .b8) 0xe1#8).log = (wide.decode (s := .b16) 0x35e0#16).log ∧
      (narrow.decode (s := .b8) 0xe1#8).log ≠ (wide.decode (s := .b16) 0x35f0#16).log := by
  intro name field narrow wide
  have same :=
    Entry.told_by_lines.2 (s := .b8) (t := .b16) narrow wide 0xe1#8 0x35e0#16 _ _ rfl rfl
  have other :=
    Entry.told_by_lines.2 (s := .b8) (t := .b16) narrow wide 0xe1#8 0x35f0#16 _ _ rfl rfl
  exact ⟨by decide, same.2 (by decide), fun logs => absurd (other.1 logs) (by decide)⟩

end WordFields
