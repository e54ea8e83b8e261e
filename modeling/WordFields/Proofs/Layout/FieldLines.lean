import WordFields.Proofs.Layout.GivenValues
import WordFields.Proofs.Layout.Made

/-!
# Which lines make a field or a range

A field or a range alone is told by the lines of a table, which may come in any order, be repeated
or have keys that nobody knows. The earliest line at fault decides, then what is missing, then
whether start is below end. While lines are read without a fault, what is known under a key is what
the lines hold under it, and there is only one such line.
-/

set_option autoImplicit false

namespace WordFields

open Toml

/-- The line `key = value`. -/
structure GivenLine where
  key : String
  value : GivenValue
  deriving DecidableEq, Repr

namespace GivenLine

def text (line : GivenLine) : String := pairLine line.key line.value.text

def entry (line : GivenLine) : String × Node := (line.key, line.value.node)

/-- The key needs no quotes. -/
structure Spellable (line : GivenLine) : Prop where
  bare : (!line.key.toList.isEmpty && line.key.toList.all isBare) = true
  value : line.value.Spellable

instance (line : GivenLine) : Decidable line.Spellable :=
  decidable_of_iff
    ((!line.key.toList.isEmpty && line.key.toList.all isBare) = true ∧ line.value.Spellable)
    ⟨fun ⟨bare, value⟩ => ⟨bare, value⟩, fun spellable => ⟨spellable.bare, spellable.value⟩⟩

/-- What is wrong with a line behind others, if its key is known: it is there again, whatever its
value, or its value is at fault. -/
def fault? (expected? : String → Option Expected) (before : List GivenLine) (line : GivenLine) :
    Option ReadError :=
  match expected? line.key with
  | none => none
  | some expected =>
    if line.key ∈ before.map key then some (.duplicate line.key) else line.value.fault? expected

theorem fault?_unknown {expected? : String → Option Expected} {line : GivenLine}
    (unknown : expected? line.key = none) (before : List GivenLine) :
    line.fault? expected? before = none := by
  rw [fault?, unknown]

theorem fault?_congr {expected? other? : String → Option Expected} {line : GivenLine}
    (same : expected? line.key = other? line.key) (before : List GivenLine) :
    line.fault? expected? before = line.fault? other? before := by
  rw [fault?, fault?, same]

end GivenLine

/-- The fault of the earliest line at fault. -/
def firstFault? (expected? : String → Option Expected) (before : List GivenLine) :
    List GivenLine → Option ReadError
  | [] => none
  | line :: rest =>
    (line.fault? expected? before).or (firstFault? expected? (before ++ [line]) rest)

def linesText (lines : List GivenLine) : String := String.join (lines.map GivenLine.text)

def BitRange.expected? : String → Option Expected
  | "start" => some .position
  | "end" => some .position
  | _ => none

theorem BitRange.expected?_other {key : String} (noStart : key ≠ "start") (noStop : key ≠ "end") :
    expected? key = none := by
  unfold expected?
  split
  next => exact absurd rfl noStart
  next => exact absurd rfl noStop
  next => rfl

def Field.expected? : String → Option Expected
  | "signed" => some .flag
  | key => BitRange.expected? key

theorem Field.expected?_other {key : String} (noSigned : key ≠ "signed") :
    expected? key = BitRange.expected? key := by
  unfold expected?
  split
  next => exact absurd rfl noSigned
  next => rfl

/-- What lines without a fault come to: a key may be missing, or start is not below end, or `make`
is applied to the range that they tell. -/
structure TellRange {α : Type} (lines : List GivenLine) (make : BitRange → α)
    (result : Reading α) : Prop where
  noStart : "start" ∉ lines.map GivenLine.key → result = .error (.missing "start")
  noStop : "start" ∈ lines.map GivenLine.key → "end" ∉ lines.map GivenLine.key →
    result = .error (.missing "end")
  reversed : ∀ start stop : Position, ⟨"start", .position start⟩ ∈ lines →
    ⟨"end", .position stop⟩ ∈ lines → stop ≤ start →
    result = .error (.range (.reversed start stop))
  accepted : ∀ a, result = .ok a ↔ ∃ r : BitRange, ⟨"start", .position r.start⟩ ∈ lines ∧
    ⟨"end", .position r.stop⟩ ∈ lines ∧ make r = a

theorem ofText?_lines {lines : List GivenLine} (spellable : ∀ line ∈ lines, line.Spellable) :
    Table.ofText? (linesText lines) = some ⟨.closed, lines.map GivenLine.entry⟩ := by
  have spells : Spells (linesText lines)
      (Section.pairStatements (lines.map GivenLine.entry)) := by
    rw [Section.pairStatements, List.map_map, List.map_eq_flatMap]
    exact Spells.join fun line mem =>
      Spells.bare (spellable line mem).bare (GivenValue.valueText (spellable line mem).value)
  exact spells.ofText?_eq.trans (Section.ofStatements_only_pairs _)

theorem ofText_lines {lines : List GivenLine} (spellable : ∀ line ∈ lines, line.Spellable)
    {σ α : Type} (start : σ) (read : σ → String → Node → Reading σ) (finish : σ → Reading α) :
    Reading.ofText (fun t => t.read start read >>= finish) (linesText lines) =
      (lines.map GivenLine.entry).foldlM (fun state e => read state e.1 e.2) start >>= finish := by
  rw [Reading.ofText, ofText?_lines spellable]
  dsimp only
  rw [Table.read_unbroken (by decide)]

/-- The lines hold this under the key, and nothing else. -/
def Holds (lines : List GivenLine) (key : String) (slot : Option GivenValue) : Prop :=
  ∀ value, ⟨key, value⟩ ∈ lines ↔ slot = some value

namespace Holds

variable {lines : List GivenLine} {key : String} {slot : Option GivenValue}

theorem nothing (key : String) : Holds [] key none := by
  intro value
  simp

/-- Of a key that the lines have, they hold a value. -/
theorem mem_keys (holds : Holds lines key slot) :
    key ∈ lines.map GivenLine.key ↔ ∃ value, slot = some value := by
  simp only [List.mem_map, ← holds _]
  constructor
  · rintro ⟨⟨_, value⟩, mem, rfl⟩
    exact ⟨value, mem⟩
  · rintro ⟨value, mem⟩
    exact ⟨_, mem, rfl⟩

theorem other (holds : Holds lines key slot) {line : GivenLine} (other : line.key ≠ key) :
    Holds (lines ++ [line]) key slot := by
  intro value
  rw [List.mem_append, holds value, List.mem_singleton, or_iff_left]
  rintro rfl
  exact other rfl

theorem mem_iff {α : Type} {given : α → GivenValue} (injective : Function.Injective given)
    {slot : Option α} (holds : Holds lines key (slot.map given)) {a : α} :
    ⟨key, given a⟩ ∈ lines ↔ slot = some a := by
  rw [holds, ← Option.map_some, (Option.map_injective injective).eq_iff]

theorem absent (holds : Holds lines key slot) (unused : key ∉ lines.map GivenLine.key) :
    slot = none := by
  cases slot with
  | none => rfl
  | some value => exact absurd (holds.mem_keys.2 ⟨value, rfl⟩) unused

theorem first (holds : Holds lines key none) (value : GivenValue) :
    Holds (lines ++ [⟨key, value⟩]) key (some value) := by
  intro found
  rw [List.mem_append, holds found, List.mem_singleton, Option.some_inj]
  constructor
  · rintro (before | last)
    · cases before
    · injection last with _ same
      exact same.symm
  · rintro rfl
    exact .inr rfl

end Holds

/-- A key that is there already is at fault, and the value of any other is what the lines then hold
under the key. -/
theorem Reading.once_decided {α : Type} {expected? : String → Option Expected} {line : GivenLine}
    {expected : Expected} (known : expected? line.key = some expected) {given : α → GivenValue}
    {read : Node → Reading α} (reads : GivenValue.ReadBy expected given read)
    (spellable : line.value.Spellable) {before : List GivenLine} {slot : Option α}
    (holds : Holds before line.key (slot.map given)) :
    DecidedBy (fun slot => Holds (before ++ [line]) line.key (slot.map given))
      (line.fault? expected? before) (Reading.once line.key slot (read line.value.node)) := by
  unfold GivenLine.fault?
  rw [known]
  dsimp only
  cases slot with
  | some a =>
    rw [if_pos (holds.mem_keys.2 ⟨_, rfl⟩)]
    exact .fault _
  | none =>
    have fresh : line.key ∉ before.map GivenLine.key := by
      intro again
      obtain ⟨value, found⟩ := holds.mem_keys.1 again
      cases found
    rw [if_neg fresh]
    refine (reads line.value spellable).map fun a isGiven => ?_
    rw [Option.map_some, isGiven]
    exact holds.first line.value

/-- What one line does to a draft: a fault ends the reading, any other line is added to what the
draft knows, and one with an unknown key leaves it as it is. -/
structure ReadsLine {σ : Type} (expected? : String → Option Expected)
    (knows : List GivenLine → σ → Prop) (read : σ → String → Node → Reading σ) : Prop where
  decided : ∀ {before : List GivenLine} {draft : σ} {line : GivenLine}, knows before draft →
    line.value.Spellable → Reading.DecidedBy (knows (before ++ [line]))
      (line.fault? expected? before) (read draft line.key line.value.node)
  ignored : ∀ line : GivenLine, expected? line.key = none → ∀ draft,
    read draft line.key line.value.node = .ok draft

section Run

variable {σ : Type} {expected? : String → Option Expected} {knows : List GivenLine → σ → Prop}
  {read : σ → String → Node → Reading σ} (reads : ReadsLine expected? knows read)

include reads

theorem foldlM_decided {before lines : List GivenLine} {draft : σ} (known : knows before draft)
    (spellable : ∀ line ∈ lines, line.Spellable) :
    Reading.DecidedBy (knows (before ++ lines)) (firstFault? expected? before lines)
      ((lines.map GivenLine.entry).foldlM (fun state e => read state e.1 e.2) draft) := by
  -- the draft knows the lines before, so the faults are those of the lines that are left
  induction lines generalizing before draft with
  | nil =>
    rw [List.append_nil]
    exact .taken known
  | cons line rest ih =>
    rw [List.map_cons, List.foldlM_cons, firstFault?]
    refine (reads.decided known (spellable line List.mem_cons_self).value).bind
      fun next knowsNext => ?_
    have others := ih knowsNext fun line mem => spellable line (List.mem_cons_of_mem _ mem)
    rwa [List.append_assoc, List.singleton_append] at others

theorem foldlM_filter (lines : List GivenLine) (draft : σ) :
    ((lines.filter fun line => (expected? line.key).isSome).map GivenLine.entry).foldlM
        (fun state e => read state e.1 e.2) draft =
      (lines.map GivenLine.entry).foldlM (fun state e => read state e.1 e.2) draft := by
  induction lines generalizing draft with
  | nil => rfl
  | cons line rest ih =>
    cases known : expected? line.key with
    | none =>
      rw [List.filter_cons_of_neg (by simp [known]), List.map_cons, List.foldlM_cons,
        GivenLine.entry, reads.ignored line known draft, ok_bind, ih]
    | some expected =>
      rw [List.filter_cons_of_pos (by simp [known]), List.map_cons, List.map_cons,
        List.foldlM_cons, List.foldlM_cons]
      congr 1
      funext next
      exact ih next

variable {lines : List GivenLine} (spellable : ∀ line ∈ lines, line.Spellable)

include spellable

/-- A draft that knows all lines is finished, unless one of them is at fault. -/
theorem ofText_decided {start : σ} (known : knows [] start) {α : Type} {finish : σ → Reading α}
    {rest : Reading α → Prop} (told : ∀ draft, knows lines draft → rest (finish draft)) :
    Reading.FaultFirst (firstFault? expected? [] lines) rest
      (Reading.ofText (fun t => t.read start read >>= finish) (linesText lines)) := by
  have decided : Reading.DecidedBy (knows lines) (firstFault? expected? [] lines) _ :=
    foldlM_decided reads known spellable
  rw [ofText_lines spellable]
  exact decided.finish told

theorem ofText_known (start : σ) {α : Type} (finish : σ → Reading α) :
    Reading.ofText (fun t => t.read start read >>= finish) (linesText lines) =
      Reading.ofText (fun t => t.read start read >>= finish)
        (linesText (lines.filter fun line => (expected? line.key).isSome)) := by
  have known : ∀ line ∈ lines.filter fun line => (expected? line.key).isSome, line.Spellable :=
    fun line mem => spellable line (List.mem_of_mem_filter mem)
  rw [ofText_lines spellable, ofText_lines known, foldlM_filter reads]

end Run

namespace RangeDraft

/-- The draft knows what the lines hold. -/
structure Knows (lines : List GivenLine) (draft : RangeDraft) : Prop where
  start : Holds lines "start" (draft.start.map GivenValue.position)
  stop : Holds lines "end" (draft.stop.map GivenValue.position)

theorem read_start (draft : RangeDraft) (node : Node) : draft.read "start" node = (do
    let start ← Reading.once "start" draft.start node.position
    .ok { draft with start }) := rfl

theorem read_stop (draft : RangeDraft) (node : Node) : draft.read "end" node = (do
    let stop ← Reading.once "end" draft.stop node.position
    .ok { draft with stop }) := rfl

theorem read_other (draft : RangeDraft) {key : String} (noStart : key ≠ "start")
    (noStop : key ≠ "end") {node : Node} (walked : node.ignore = .ok ()) :
    draft.read key node = .ok draft := by
  unfold read
  split
  next => exact absurd rfl noStart
  next => exact absurd rfl noStop
  next =>
    rw [walked]
    rfl

theorem reads_line : ReadsLine BitRange.expected? Knows RangeDraft.read where
  decided := by
    -- a known key adds to what is held under it, and to nothing else
    rintro before draft ⟨key, v⟩ knows spellable
    by_cases isStart : key = "start"
    · subst isStart
      rw [read_start]
      refine (Reading.once_decided rfl GivenValue.readBy_position spellable knows.start).map ?_
      exact fun start holds => ⟨holds, knows.stop.other (by simp)⟩
    by_cases isStop : key = "end"
    · subst isStop
      rw [read_stop]
      refine (Reading.once_decided rfl GivenValue.readBy_position spellable knows.stop).map ?_
      exact fun stop holds => ⟨knows.start.other (by simp), holds⟩
    have unknown := BitRange.expected?_other isStart isStop
    rw [GivenLine.fault?_unknown unknown, read_other draft isStart isStop v.ignore_node]
    exact .taken ⟨knows.start.other isStart, knows.stop.other isStop⟩
  ignored := by
    rintro ⟨key, v⟩ unknown draft
    refine read_other draft ?_ ?_ v.ignore_node
    · rintro rfl
      cases unknown
    · rintro rfl
      cases unknown

theorem finish_eq_ok_iff {draft : RangeDraft} {r : BitRange} :
    draft.finish = .ok r ↔ draft.start = some r.start ∧ draft.stop = some r.stop := by
  obtain ⟨start, stop⟩ := draft
  constructor
  · intro finished
    obtain ⟨first, isStart, finished⟩ := bind_eq_ok_iff.1 finished
    obtain ⟨last, isStop, finished⟩ := bind_eq_ok_iff.1 finished
    obtain ⟨rfl, rfl⟩ := BitRange.readBounds_eq_ok_iff.1 finished
    exact ⟨Reading.require_eq_ok isStart, Reading.require_eq_ok isStop⟩
  · rintro ⟨rfl, rfl⟩
    exact BitRange.readBounds_eq r

end RangeDraft

namespace FieldDraft

/-- The draft knows what the lines hold. -/
structure Knows (lines : List GivenLine) (draft : FieldDraft) : Prop where
  range : draft.range.Knows lines
  signed : Holds lines "signed" (draft.signed.map GivenValue.flag)

theorem read_signed (draft : FieldDraft) (node : Node) : draft.read "signed" node = (do
    let signed ← Reading.once "signed" draft.signed node.flag
    .ok { draft with signed }) := rfl

theorem read_other (draft : FieldDraft) {key : String} (noSigned : key ≠ "signed") (node : Node) :
    draft.read key node = (do
      let range ← draft.range.read key node
      .ok { draft with range }) := by
  unfold read
  split
  next => exact absurd rfl noSigned
  next => rfl

theorem reads_line : ReadsLine Field.expected? Knows FieldDraft.read where
  decided := by
    rintro before draft ⟨key, v⟩ knows spellable
    by_cases isSigned : key = "signed"
    · subst isSigned
      rw [read_signed]
      refine (Reading.once_decided rfl GivenValue.readBy_flag spellable knows.signed).map ?_
      refine fun signed holds => ⟨⟨?_, ?_⟩, holds⟩
      · exact knows.range.start.other (by simp)
      · exact knows.range.stop.other (by simp)
    -- every other line is one of the range's table
    have known := Field.expected?_other isSigned
    have step := RangeDraft.reads_line.decided knows.range spellable
    rw [read_other draft isSigned, GivenLine.fault?_congr known]
    exact step.map fun range knowsRange => ⟨knowsRange, knows.signed.other isSigned⟩
  ignored := by
    rintro ⟨key, v⟩ unknown draft
    have noSigned : key ≠ "signed" := by
      rintro rfl
      cases unknown
    have unknownToo : BitRange.expected? key = none := by
      rw [← Field.expected?_other noSigned]
      exact unknown
    rw [read_other draft noSigned]
    dsimp only
    rw [RangeDraft.reads_line.ignored ⟨key, v⟩ unknownToo draft.range]
    rfl

end FieldDraft

theorem RangeDraft.Knows.tell {lines : List GivenLine} {draft : RangeDraft}
    (knows : draft.Knows lines) {α : Type} (make : BitRange → α) :
    TellRange lines make (draft.finish >>= fun r => .ok (make r)) where
  noStart := by
    intro unused
    have isStart := Option.map_eq_none_iff.1 (knows.start.absent unused)
    rw [finish, isStart]
    rfl
  noStop := by
    intro used unused
    obtain ⟨value, isValue⟩ := knows.start.mem_keys.1 used
    obtain ⟨start, isStart, -⟩ := Option.map_eq_some_iff.1 isValue
    have isStop := Option.map_eq_none_iff.1 (knows.stop.absent unused)
    rw [finish, isStart, isStop]
    rfl
  reversed := by
    intro start stop hasStart hasStop reversed
    have isStart := (knows.start.mem_iff GivenValue.position_injective).1 hasStart
    have isStop := (knows.stop.mem_iff GivenValue.position_injective).1 hasStop
    have refused := BitRange.readBounds_reversed (Fin.not_lt.2 reversed)
    rw [finish, isStart, isStop]
    exact congrArg (· >>= fun r => .ok (make r)) refused
  accepted := by
    intro a
    simp only [bind_eq_ok_iff, finish_eq_ok_iff, knows.start.mem_iff GivenValue.position_injective,
      knows.stop.mem_iff GivenValue.position_injective, Except.ok.injEq, and_assoc]

theorem RangeDraft.knows_empty : RangeDraft.empty.Knows [] := ⟨.nothing _, .nothing _⟩

theorem FieldDraft.knows_empty : FieldDraft.empty.Knows [] :=
  ⟨RangeDraft.knows_empty, .nothing _⟩

section Texts

variable {lines : List GivenLine} (spellable : ∀ line ∈ lines, line.Spellable)

include spellable

theorem BitRange.reads_lines : Reading.FaultFirst (firstFault? expected? [] lines)
    (TellRange lines id) (parse (linesText lines)) := by
  refine ofText_decided RangeDraft.reads_line spellable RangeDraft.knows_empty fun draft knows => ?_
  have same : (draft.finish >>= fun r => .ok (id r)) = draft.finish := bind_pure _
  rw [← same]
  exact knows.tell id

/-- A field is unsigned unless a line says otherwise. -/
theorem Field.reads_lines : Reading.FaultFirst (firstFault? expected? [] lines)
    (TellRange lines fun r => ⟨r, decide (⟨"signed", .flag true⟩ ∈ lines)⟩)
    (parse (linesText lines)) := by
  refine ofText_decided FieldDraft.reads_line spellable FieldDraft.knows_empty fun draft knows => ?_
  have rule : draft.signed.getD false = decide (⟨"signed", .flag true⟩ ∈ lines) := by
    rw [Bool.eq_iff_iff, decide_eq_true_iff, knows.signed.mem_iff GivenValue.flag_injective]
    cases draft.signed <;> simp
  rw [FieldDraft.finish, rule]
  exact knows.range.tell _

end Texts

/-- A field, and a range too, is read from lines exactly if no line is at fault and they tell a
start below an end; the other outcomes have these messages. Lines with unknown keys have no
influence. -/
theorem lines_read_exactly {lines : List GivenLine} (spellable : ∀ line ∈ lines, line.Spellable) :
    Reading.FaultFirst (firstFault? Field.expected? [] lines)
      (TellRange lines fun r => ⟨r, decide (⟨"signed", .flag true⟩ ∈ lines)⟩)
      (Field.parse (linesText lines)) ∧
    Reading.FaultFirst (firstFault? BitRange.expected? [] lines) (TellRange lines id)
      (BitRange.parse (linesText lines)) ∧
    Field.parse (linesText lines) =
      Field.parse (linesText (lines.filter fun line => (Field.expected? line.key).isSome)) ∧
    BitRange.parse (linesText lines) =
      BitRange.parse (linesText (lines.filter fun line => (BitRange.expected? line.key).isSome)) ∧
    ∀ (key : String) (start stop : Position),
      (ReadError.duplicate key).message = some s!"duplicate field `{key}`" ∧
      (ReadError.missing key).message = some s!"missing field `{key}`" ∧
      (ReadError.range (.reversed start stop)).message = some
        s!"invalid bit range {start.val}..{stop.val}, start must be below end" :=
  ⟨Field.reads_lines spellable, BitRange.reads_lines spellable,
    ofText_known FieldDraft.reads_line spellable .empty FieldDraft.finish,
    ofText_known RangeDraft.reads_line spellable .empty RangeDraft.finish,
    fun _ _ _ => ⟨rfl, rfl, rfl⟩⟩

/-- The lowest integer for a start is at fault before the end is given again; without faults the
order does not matter, nor does a key that only one of the two readers knows. -/
theorem first_fault_of_lines_decides :
    Field.parse "colour = true\nend = 8\nstart = -9223372036854775808\nend = false\n" =
      .error (.notPosition (-0x8000000000000000)) ∧
    Field.parse "signed = true\nend = 8\ncolour = -1\nstart = 0\n" =
      .ok ⟨⟨0, 8, by decide⟩, true⟩ ∧
    BitRange.parse "signed = 1\nend = 8\nstart = 8\nsigned = 1\n" =
      .error (.range (.reversed 8 8)) := by
  let faulty : List GivenLine := [⟨"colour", .flag true⟩, ⟨"end", .integer 8⟩,
    ⟨"start", .integer (-0x8000000000000000)⟩, ⟨"end", .flag false⟩]
  let told : List GivenLine := [⟨"signed", .flag true⟩, ⟨"end", .integer 8⟩,
    ⟨"colour", .integer (-1)⟩, ⟨"start", .integer 0⟩]
  let reversed : List GivenLine := [⟨"signed", .integer 1⟩, ⟨"end", .integer 8⟩,
    ⟨"start", .integer 8⟩, ⟨"signed", .integer 1⟩]
  have spellableFaulty : ∀ line ∈ faulty, line.Spellable := by decide
  have ofFaulty := (lines_read_exactly spellableFaulty).1
  have spellableTold : ∀ line ∈ told, line.Spellable := by decide
  have ofTold := (lines_read_exactly spellableTold).1
  have spellableReversed : ∀ line ∈ reversed, line.Spellable := by decide
  have ofReversed := (lines_read_exactly spellableReversed).2.1
  refine ⟨?_, ?_, ?_⟩
  · refine Eq.trans (congrArg Field.parse ?_) (ofFaulty.refused _ (by decide))
    decide +kernel
  · refine Eq.trans (congrArg Field.parse ?_) (((ofTold.otherwise (by decide)).accepted _).2 ?_)
    · decide +kernel
    · exact ⟨⟨0, 8, by decide⟩, by decide, by decide, by decide⟩
  · refine Eq.trans (congrArg BitRange.parse ?_)
      ((ofReversed.otherwise (by decide)).reversed _ _ (by decide) (by decide) (by decide))
    decide +kernel

end WordFields
