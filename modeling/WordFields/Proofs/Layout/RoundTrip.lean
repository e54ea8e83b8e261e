import WordFields.Proofs.Layout.Made
import WordFields.Proofs.NameMap

/-!
# A layout is read back from its text

The text of a layout is one of the texts that spell its fields as tables: in name order, with an
empty line between them. Only a layout without fields has a text of another form, an empty table.
Validation then sees the layout that was written, and gives it back or refuses it as it would have
refused it before.
-/

set_option autoImplicit false

namespace WordFields

open Toml

theorem Field.render_eq (f : Field) :
    f.render = String.join (f.keys.map fun k => pairLine k.name (k.text f)) := by
  obtain ⟨range, signed⟩ := f
  cases signed with
  | false => simp [render, BitRange.render, keys, FieldKey.name, FieldKey.text]
  | true =>
    simp only [render, BitRange.render, keys, FieldKey.name, FieldKey.text, if_true,
      List.cons_append, List.nil_append, List.map_cons, List.map_nil, String.join_cons,
      String.join_nil, String.append_empty, String.append_assoc]
    rfl

theorem ToldField.headed_written (e : String × Field) :
    (written e).headed = Layout.fieldTable e.1 e.2 := by
  have path : "[" ++ pathText ["fields", e.1] = "[fields." ++ String.ofList (keyText e.1) := by
    rw [pathText, List.map_cons, List.map_singleton, String.intercalate_cons_cons,
      String.intercalate_singleton, ← String.append_assoc, ← String.append_assoc]
    rfl
  rw [headed, lines, Layout.fieldTable, Field.render_eq]
  exact congrArg (· ++ "]\n" ++ _) path

namespace Layout

theorem intercalate_cons (gap first : String) (rest : List String) :
    gap.intercalate (first :: rest) = first ++ String.join (rest.map (gap ++ ·)) := by
  induction rest generalizing first with
  | nil => simp
  | cons next rest ih =>
    rw [String.intercalate_cons_cons, ih, List.map_cons, String.join_cons, String.append_assoc,
      String.append_assoc]

/-- A layout with fields is written with an empty line between their tables. -/
theorem fieldTables_eq (first : String × Field) (rest : List (String × Field)) :
    fieldTables (first :: rest) = headedText "\n" ((first :: rest).map ToldField.written) := by
  rw [headedText, List.map_cons, List.map_cons, intercalate_cons, fieldTables, List.map_map,
    List.map_map]
  simp only [← ToldField.headed_written]
  rfl

/-- The text of a layout without fields has an empty table for them. -/
theorem parse_no_fields {width : Position} (small : width.val < 0x8000000000000000) :
    parse (textOf width (fieldTables [])) = .ok ⟨width, .empty⟩ := by
  have header : Spells (fieldTables []) [.header ⟨["fields"], false⟩] := by
    have named : pathText ["fields"] = "fields" := pathText_bare (by decide)
    have line := Spells.header (List.cons_ne_nil "fields" [])
    rw [named] at line
    exact Spells.newline.append line
  have collected : Section.ofStatements (Section.pairStatements [("width", .integer width.val)] ++
      [.header ⟨["fields"], false⟩]) =
      some [⟨[], false, [("width", .integer width.val)]⟩, ⟨["fields"], false, []⟩] :=
    Section.ofStatements_pairs (by simp) rfl (by simp)
  rw [parse, Reading.ofText, textOf, ((width_spells small).append header).ofText?_eq, collected,
    Option.bind_eq_bind, Option.bind_some, Section.table_empty]
  exact ofTable_fields width (.table .closed [])

/-- A layout is read back from its text, whatever its names. -/
theorem parse_render {l : Layout} (spellable : l.Spellable) : parse l.render = .ok l := by
  obtain ⟨width, fields⟩ := l
  have made : NameMap.ofList fields.entries = fields := NameMap.ofList_of_perm (.refl _)
  cases entries : fields.entries with
  | nil =>
    rw [entries] at made
    rw [render, entries, ← made]
    exact parse_no_fields spellable.width
  | cons first rest =>
    have named : ((first :: rest).map ToldField.written).map ToldField.named = first :: rest := by
      rw [List.map_map]
      exact List.map_id _
    have distinct : (((first :: rest).map ToldField.written).map ToldField.name).Nodup := by
      rw [List.map_map, ← entries]
      exact fields.nodup_names
    have small : ∀ t ∈ (first :: rest).map ToldField.written,
        t.field.range.stop.val < 0x8000000000000000 := by
      intro t mem
      obtain ⟨e, inEntries, rfl⟩ := List.mem_map.1 mem
      exact spellable.stops e (entries ▸ inEntries)
    have read := parse_headed spellable.width small distinct Spells.newline
    rw [← fieldTables_eq, named, ← entries, made] at read
    exact read

theorem parseValid_render {l : Layout} (spellable : l.Spellable) :
    parseValid l.render = l.accept := by
  unfold parseValid
  rw [parse_render spellable]

theorem parseValid_render_value {l : Layout} (spellable : l.Spellable) :
    (parseValid l.render).value = l.verdict.map fun _ => l := by
  rw [parseValid_render spellable, accept_value, check_eq]

/-- Every layout that can be made has numbers that a text can hold, and every layout with such
numbers is read back from its text, whatever its names. Read with validation it comes back if it is
valid; otherwise its width is refused, or else the first field in name order that ends past the
width. -/
theorem text_round_trip :
    (∀ l : Layout, l.Made → l.Spellable) ∧
      ∀ l : Layout, l.Spellable →
        parse l.render = .ok l ∧
        parseValid l.render = l.accept ∧
        (l.Valid → (parseValid l.render).value = .ok l) ∧
        (l.width ∉ supportedWidths →
          (parseValid l.render).value = .refuse (.unsupportedWidth l.width)) ∧
        (l.width ∈ supportedWidths → ∀ e, l.firstOutside = some e →
          (parseValid l.render).value =
            .refuse (.inField e.1 (.outside e.2.range.stop l.width))) := by
  refine ⟨fun l made => made.spellable, fun l spellable => ?_⟩
  refine ⟨parse_render spellable, parseValid_render spellable, ?_, ?_, ?_⟩
  · intro valid
    rw [parseValid_render_value spellable, ← check_eq, check_eq_ok_iff.2 valid]
    rfl
  · intro unsupported
    rw [parseValid_render_value spellable, verdict, checkWidth_of_unsupported unsupported]
    rfl
  · intro supported e outside
    rw [parseValid_render_value spellable, verdict, checkWidth_of_supported supported, outside]
    rfl

/-- A layout with an empty name and one of marks, a newline and a control comes back. With one field
from 4 to 9 a layout of 12 bits has its width refused, and one of 8 bits its field. -/
theorem oddly_named_comes_back :
    let oneField (width : Position) : Layout :=
      ⟨width, ⟨[("", ⟨⟨⟨4, by decide⟩, ⟨9, by decide⟩, by decide⟩, false⟩)], by decide⟩⟩
    (∃ l : Layout, l.Spellable ∧ l.fields.names = ["", "a.b]\n\"\\é\x01"] ∧
      (parseValid l.render).value = .ok l) ∧
    (parseValid (oneField ⟨12, by decide⟩).render).value =
      .refuse (.unsupportedWidth ⟨12, by decide⟩) ∧
    (parseValid (oneField ⟨8, by decide⟩).render).value =
      .refuse (.inField "" (.outside ⟨9, by decide⟩ ⟨8, by decide⟩)) := by
  intro oneField
  let odd : Layout :=
    ⟨⟨16, by decide⟩,
      ⟨[("", ⟨⟨⟨0, by decide⟩, ⟨8, by decide⟩, by decide⟩, false⟩),
        ("a.b]\n\"\\é\x01", ⟨⟨⟨4, by decide⟩, ⟨16, by decide⟩, by decide⟩, true⟩)], by decide⟩⟩
  have back := text_round_trip.2 odd ⟨by decide, by decide⟩
  have twelve := text_round_trip.2 (oneField ⟨12, by decide⟩) ⟨by decide, by decide⟩
  have eight := text_round_trip.2 (oneField ⟨8, by decide⟩) ⟨by decide, by decide⟩
  refine ⟨⟨odd, ?_, rfl, ?_⟩, ?_, ?_⟩
  · exact text_round_trip.1 odd (.parse back.1)
  · exact back.2.2.1 ⟨by decide, by decide⟩
  · exact twelve.2.2.2.1 (by decide)
  · exact eight.2.2.2.2 (by decide) _ rfl

end Layout

end WordFields
