import WordFields.Proofs.Layout.RoundTrip

/-!
# Which ranges and fields are read back from their text

A range or a field alone is written as the pairs of a table without a header. Its positions have 64
bits, and all of them are written in decimal; but the integers of a text end below `2^63`, and
digits from there on are no value. So a range or a field is read back exactly if it ends below that,
and the text of any other is refused as no text at all.
-/

set_option autoImplicit false

namespace WordFields

open Toml

/-- Digits that are no value make the line of a position no statement. -/
theorem Position.broken_line {p : Position} (far : ¬ p.Spellable) {path : List String}
    (nonempty : path ≠ []) : BrokenLine (pairTokens path [.word p.render.toList]) := by
  refine broken_pair_line nonempty p.render_plain fun following ends => ?_
  rw [render_toList, scalar_toDigits p.val ends]
  exact if_neg far

namespace FieldKey

/-- The line of the field under this key, its newline apart. -/
def line (f : Field) (k : FieldKey) : List Token := pairTokens [k.name] [.word (k.text f).toList]

theorem line_written (f : Field) (k : FieldKey) :
    (pairLine k.name (k.text f)).toList = (k.line f).flatMap Token.text ++ ['\n'] := by
  have written : (pairLine (pathText [k.name]) (k.text f)).toList =
      (k.line f).flatMap Token.text ++ ['\n'] := pairLine_toList (by simp [Token.text])
  rwa [pathText_bare k.name_bare] at written

theorem line_read_or_broken (f : Field) (k : FieldKey) :
    (∃ st, Line (k.line f) st) ∨ BrokenLine (k.line f) := by
  have position (p : Position) : (∃ st, Line (pairTokens [k.name] [.word p.render.toList]) st) ∨
      BrokenLine (pairTokens [k.name] [.word p.render.toList]) := by
    by_cases spellable : p.Spellable
    · exact .inl ⟨_, pair_line (by simp) (.position spellable)⟩
    · exact .inr (Position.broken_line spellable (by simp))
  cases k with
  | start => exact position f.range.start
  | stop => exact position f.range.stop
  | signed => exact .inl ⟨_, pair_line (by simp) (.flag f.signed)⟩

end FieldKey

namespace Field

theorem ofText?_render {f : Field} (spellable : f.Spellable) :
    Table.ofText? f.render = some ⟨.closed, f.keys.map (FieldKey.entry f)⟩ := by
  have spells := ToldField.lines_spells (t := .written ("", f)) spellable
  rw [render_eq]
  exact spells.ofText?_eq.trans (Section.ofStatements_only_pairs _)

theorem ofText?_render_far {f : Field} (far : ¬ f.Spellable) : Table.ofText? f.render = none := by
  have each : ∀ line ∈ f.keys.map (FieldKey.line f),
      (∃ st, Line line st) ∨ BrokenLine line := by
    intro line mem
    obtain ⟨k, _, rfl⟩ := List.mem_map.1 mem
    exact k.line_read_or_broken f
  have broken : BrokenLine (FieldKey.stop.line f) := Position.broken_line far (by simp)
  rw [render_eq]
  exact ofText?_broken each ⟨_, List.mem_map_of_mem f.toldBy_keys.stop, broken⟩
    (join_lines_toList fun k _ => k.line_written f)

theorem parse_render (f : Field) :
    Field.parse f.render = if f.Spellable then .ok f else .error .malformed := by
  rw [parse, Reading.ofText]
  by_cases spellable : f.Spellable
  · rw [ofText?_render spellable, if_pos spellable]
    have read : ofNode (.table .closed (f.keys.map (FieldKey.entry f))) = .ok f :=
      ofNode_told (by decide) (.written ("", f))
    exact read
  · rw [ofText?_render_far spellable, if_neg spellable]

theorem parse_spellable {text : String} {f : Field} (read : Field.parse text = .ok f) :
    f.Spellable := by
  obtain ⟨t, inRange, ofTable⟩ := Reading.ofText_eq_ok read
  exact ofTable_spellable inRange ofTable

end Field

namespace BitRange

/-- A range is written as an unsigned field is. -/
theorem render_eq (r : BitRange) : r.render = Field.render ⟨r, false⟩ := by
  simp [Field.render]

theorem parse_render (r : BitRange) :
    BitRange.parse r.render = if r.stop.Spellable then .ok r else .error .malformed := by
  rw [parse, Reading.ofText, render_eq]
  by_cases spellable : r.stop.Spellable
  · rw [Field.ofText?_render (f := ⟨r, false⟩) spellable, if_pos spellable]
    simp [Field.keys, FieldKey.entry, FieldKey.name, FieldKey.node, Table.read_unbroken,
      RangeDraft.read, RangeDraft.empty, RangeDraft.finish, Reading.once, Reading.require,
      Node.position_integer, readBounds_eq]
  · rw [Field.ofText?_render_far (f := ⟨r, false⟩) spellable, if_neg spellable]

theorem parse_spellable {text : String} {r : BitRange} (read : BitRange.parse text = .ok r) :
    r.stop.Spellable := by
  obtain ⟨t, inRange, ofTable⟩ := Reading.ofText_eq_ok read
  obtain ⟨draft, isDraft, made⟩ := bind_eq_ok_iff.1 ofTable
  have empty : RangeDraft.empty.Spellable := fun stop known => nomatch known
  have spellable : draft.Spellable := Table.read_keeps RangeDraft.Spellable
    (fun _ _ _ _ before inRange read => RangeDraft.read_spellable before inRange read) inRange
    empty isDraft
  exact RangeDraft.finish_spellable spellable made

end BitRange

/-- A range, and each of the two fields over it, is read back from its text exactly if it ends below
`2^63`. Otherwise its text is refused, and no other text is read as it either. -/
theorem read_back_exactly_if_spellable (r : BitRange) (signed : Bool) :
    (BitRange.parse r.render = if r.stop.Spellable then .ok r else .error .malformed) ∧
    (Field.parse (Field.render ⟨r, signed⟩) =
      if r.stop.Spellable then .ok ⟨r, signed⟩ else .error .malformed) ∧
    ((∃ text, BitRange.parse text = .ok r) ↔ r.stop.Spellable) ∧
    ((∃ text, Field.parse text = .ok ⟨r, signed⟩) ↔ r.stop.Spellable) := by
  have ofRange := r.parse_render
  have ofField : Field.parse (Field.render ⟨r, signed⟩) =
      if r.stop.Spellable then .ok ⟨r, signed⟩ else .error .malformed := Field.parse_render _
  refine ⟨ofRange, ofField, ⟨?_, fun spellable => ?_⟩, ⟨?_, fun spellable => ?_⟩⟩
  · rintro ⟨text, read⟩
    exact BitRange.parse_spellable read
  · rw [if_pos spellable] at ofRange
    exact ⟨_, ofRange⟩
  · rintro ⟨text, read⟩
    exact Field.parse_spellable read
  · rw [if_pos spellable] at ofField
    exact ⟨_, ofField⟩

/-- The range from 0 to `2^63` is made and written, but its text is refused; so is that of a signed
field over it. -/
theorem far_range_not_read_back :
    ∃ far : BitRange, BitRange.ofBounds 0 ⟨0x8000000000000000, by decide⟩ = .ok far ∧
      far.render = "start = 0\nend = 9223372036854775808\n" ∧
      BitRange.parse far.render = .error .malformed ∧
      Field.parse (Field.render ⟨far, true⟩) = .error .malformed ∧
      ¬ ∀ r : BitRange, BitRange.parse r.render = .ok r := by
  let far : BitRange := ⟨0, ⟨0x8000000000000000, by decide⟩, by decide⟩
  have refused : BitRange.parse far.render = .error .malformed := by
    rw [BitRange.parse_render, if_neg (by decide)]
  refine ⟨far, rfl, by decide, refused, ?_, fun all => ?_⟩
  · rw [Field.parse_render, if_neg (by decide)]
  · have read := all far
    rw [refused] at read
    cases read

end WordFields
