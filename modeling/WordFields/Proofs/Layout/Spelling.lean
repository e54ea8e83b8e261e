import WordFields.Proofs.Layout.Fields
import WordFields.Proofs.Toml.Lines
import WordFields.Proofs.Toml.Sections

/-!
# The table that the text of a layout spells

The text of a layout is a line for the width and one table for each field. What the reader of texts
makes of it is one table with two entries: the width, and the closed tables of the fields in the
order of the text. Integers of a text end below `2^63`, so this needs a width and field ends below
that.
-/

set_option autoImplicit false

namespace WordFields

open Toml

/-- A layout whose numbers a text can hold. -/
structure Layout.Spellable (l : Layout) : Prop where
  width : l.width.val < 0x8000000000000000
  stops : ∀ e ∈ l.fields.entries, e.2.range.stop.val < 0x8000000000000000

theorem Position.render_toList (p : Position) : p.render.toList = Nat.toDigits 10 p.val := by
  simp [Position.render, toString, Nat.repr]

theorem Position.render_plain (p : Position) : (Token.word p.render.toList).Plain := by
  rw [render_toList]
  exact ⟨Nat.toDigits_ne_nil, fun c mem => isBare_of_isDigit (isDigit_of_mem mem)⟩

/-- A position below `2^63` is read back. -/
theorem Toml.ValueTokens.position {p : Position} (small : p.val < 0x8000000000000000) :
    ValueTokens [.word p.render.toList] (.integer p.val) := by
  refine .word p.render_plain fun following ends => ?_
  rw [Position.render_toList, scalar_toDigits p.val ends, if_pos small]

theorem Toml.ValueText.position {p : Position} (small : p.val < 0x8000000000000000) :
    ValueText p.render (.integer p.val) :=
  .word (.position small)

namespace FieldKey

/-- What is written of the field under this key. -/
def text (f : Field) : FieldKey → String
  | .start => f.range.start.render
  | .stop => f.range.stop.render
  | .signed => toString f.signed

theorem name_bare (k : FieldKey) : (!k.name.toList.isEmpty && k.name.toList.all isBare) = true := by
  cases k <;> decide

theorem valueText (k : FieldKey) {f : Field} (small : f.range.stop.val < 0x8000000000000000) :
    ValueText (k.text f) (k.node f) := by
  cases k with
  | start => exact .position (Nat.lt_trans f.range.val_start_lt small)
  | stop => exact .position small
  | signed => exact .flag f.signed

end FieldKey

namespace ToldField

/-- The field's keys, a line for each. -/
def lines (t : ToldField) : String :=
  String.join (t.keys.map fun k => pairLine k.name (k.text t.field))

/-- The field as a table with its own header. -/
def headed (t : ToldField) : String := "[" ++ pathText ["fields", t.name] ++ "]\n" ++ t.lines

theorem lines_spells {t : ToldField} (small : t.field.range.stop.val < 0x8000000000000000) :
    Spells t.lines (Section.pairStatements t.pairs) := by
  rw [Section.pairStatements, pairs, List.map_map, List.map_eq_flatMap]
  exact Spells.join fun k _ => Spells.bare k.name_bare (k.valueText small)

theorem headed_spells {t : ToldField} (small : t.field.range.stop.val < 0x8000000000000000) :
    Spells t.headed (Section.tableStatements "fields" (t.name, t.pairs)) :=
  (Spells.header (by simp)).append (lines_spells small)

end ToldField

namespace Layout

/-- The line of the width, with what stands behind it. -/
def textOf (width : Position) (body : String) : String := pairLine "width" width.render ++ body

section Tables

variable {width : Position} {order : List ToldField} {gap : String}

/-- The tables of fields, with nothing or an empty line between them. -/
def headedText (gap : String) (order : List ToldField) : String :=
  gap.intercalate (order.map ToldField.headed)

theorem width_spells (small : width.val < 0x8000000000000000) :
    Spells (pairLine "width" width.render)
      (Section.pairStatements [("width", .integer width.val)]) :=
  Spells.bare (by decide) (.position small)

/-- The table of a layout whose fields have tables of their own. -/
theorem ofText?_headed (small : width.val < 0x8000000000000000)
    (smallStops : ∀ t ∈ order, t.field.range.stop.val < 0x8000000000000000)
    (distinct : (order.map ToldField.name).Nodup) (between : Spells gap []) :
    Table.ofText? (textOf width (headedText gap order)) =
      some ⟨.closed, [("width", .integer width.val)] ++
        entryUnlessEmpty "fields" .closed
          (order.map fun t => (t.name, .table .closed t.pairs))⟩ := by
  let tables := order.map fun t => (t.name, t.pairs)
  have body : Spells (headedText gap order)
      (tables.flatMap (Section.tableStatements "fields")) := by
    rw [List.flatMap_map]
    exact Spells.intercalate between fun t mem => ToldField.headed_spells (smallStops t mem)
  have apart : tables.Pairwise fun a b => a.1 ≠ b.1 :=
    List.pairwise_map.2 (List.pairwise_map.1 distinct)
  rw [textOf, ((width_spells small).append body).ofText?_eq,
    Section.ofStatements_tables (by simp) "fields" apart]
  simp only [tables, List.map_map]
  rfl

/-- Fields with tables of their own are read, whatever their order and the order of their keys. -/
theorem parse_headed (small : width.val < 0x8000000000000000)
    (smallStops : ∀ t ∈ order, t.field.range.stop.val < 0x8000000000000000)
    (distinct : (order.map ToldField.name).Nodup) (between : Spells gap []) :
    parse (textOf width (headedText gap order)) =
      .ok ⟨width, .ofList (order.map ToldField.named)⟩ := by
  rw [parse, Reading.ofText, ofText?_headed small smallStops distinct between]
  exact ofTable_each ToldField.name (by decide) (fun t _ => Field.ofNode_told (by decide) t) width

end Tables

end Layout

end WordFields
