import WordFields.Proofs.Toml.Lines
import WordFields.Proofs.Toml.Locality

/-!
# A text of whole lines is read line by line

A text that ends in a newline is cut and read alone: what stands before it has no effect on how it
is cut, and what stands behind it none on what is read of it. Such texts can therefore be put one
after the other, and their statements follow each other. That holds of texts spelled in any way: a
value may go over several lines, and there may be comments.
-/

set_option autoImplicit false

namespace WordFields.Toml

namespace Lexer

/-- The lexer, had the tokens `before` been completed earlier. -/
def after (before : List Token) (r : Lexer) : Lexer := ⟨r.mode, r.tokens ++ before⟩

theorem start_after (before tokens : List Token) (c : Char) :
    start (tokens ++ before) c = (start tokens c).map (after before) := by
  unfold start
  split
  · rfl
  · split
    · rfl
    · split <;> rfl

theorem inside_after (before tokens : List Token) (quote : Quote) (block : Bool) (text : List Char)
    (c : Char) :
    inside quote block text (tokens ++ before) c =
      (inside quote block text tokens c).map (after before) := by
  unfold inside
  split
  · split <;> rfl
  · split
    · split <;> rfl
    · split
      · rfl
      · split <;> rfl

theorem escaped_after (before tokens : List Token) (block : Bool) (text : List Char) (c : Char) :
    escaped block text (tokens ++ before) c = (escaped block text tokens c).map (after before) := by
  unfold escaped
  cases block <;> split <;> rfl

/-- A step neither looks at the completed tokens nor takes any of them back. -/
theorem step_after (before : List Token) (r : Lexer) (c : Char) :
    step (r.after before) c = (step r c).map (after before) := by
  obtain ⟨mode, tokens⟩ := r
  cases mode with
  | between => exact start_after before tokens c
  | blank text =>
    dsimp only [step, after]
    split
    · rfl
    · exact start_after before (.blank text.reverse :: tokens) c
  | word text =>
    dsimp only [step, after]
    split
    · rfl
    · exact start_after before (.word text.reverse :: tokens) c
  | comment =>
    dsimp only [step, after]
    split
    · rfl
    · split <;> rfl
  | opened quote =>
    dsimp only [step, after]
    split
    · rfl
    · exact inside_after before tokens quote false [] c
  | openedTwice quote =>
    dsimp only [step, after]
    split
    · rfl
    · exact start_after before (quotedToken [] false :: tokens) c
  | blockStart quote =>
    dsimp only [step, after]
    split
    · rfl
    · exact inside_after before tokens quote true [] c
  | content quote block text => exact inside_after before tokens quote block text c
  | marks quote text count =>
    dsimp only [step, after]
    split
    · split <;> rfl
    · exact inside_after before tokens quote true _ c
  | closing quote text extra =>
    dsimp only [step, after]
    split
    · rfl
    · exact start_after before (quotedToken text true :: tokens) c
  | escape block text => exact escaped_after before tokens block text c
  | code block text left value =>
    dsimp only [step, after, Option.bind_eq_bind]
    cases hexDigit? c with
    | none => rfl
    | some digit =>
      rw [Option.bind_some, Option.bind_some]
      split
      · cases scalar? (16 * value + digit) <;> rfl
      · rfl
  | lineEnd text =>
    dsimp only [step, after]
    split
    · rfl
    · split <;> rfl
  | joined text =>
    dsimp only [step, after]
    split
    · rfl
    · exact inside_after before tokens .basic true text c

theorem run_after (before : List Token) (chars : List Char) (r : Lexer) :
    chars.foldlM step (r.after before) = (chars.foldlM step r).map (after before) := by
  induction chars generalizing r with
  | nil => rfl
  | cons c rest ih =>
    rw [List.foldlM_cons, List.foldlM_cons, step_after]
    cases step r c with
    | none => rfl
    | some next => exact ih next

theorem newline_ne_mark (quote : Quote) : '\n' ≠ quote.mark := by cases quote <;> decide

theorem inside_newline (quote : Quote) (block : Bool) (text : List Char) (tokens : List Token) :
    inside quote block text tokens '\n' =
      if block then some ⟨.content quote block ('\n' :: text), tokens⟩ else none := by
  rw [inside, if_neg (newline_ne_mark quote), if_pos rfl]

/-- No text ends inside a string, so a newline at its end is a token. -/
theorem step_newline {r next : Lexer} (stepped : step r '\n' = some next) {ts : List Token}
    (finished : next.finish = some ts) : ∃ tokens, next = ⟨.between, .newline :: tokens⟩ := by
  have started : ∀ {tokens}, start tokens '\n' = some next →
      ∃ tokens, next = ⟨.between, .newline :: tokens⟩ := fun started =>
    ⟨_, (Option.some.inj started).symm⟩
  have unfinished : ∀ {quote block text tokens},
      inside quote block text tokens '\n' ≠ some next := by
    intro quote block text tokens stays
    rw [inside_newline] at stays
    split at stays
    · cases stays
      cases finished
    · cases stays
  obtain ⟨mode, tokens⟩ := r
  cases mode with
  | between => exact started stepped
  | blank text => exact started stepped
  | word text => exact started stepped
  | comment => exact ⟨_, (Option.some.inj stepped).symm⟩
  | opened quote =>
    dsimp only [step] at stepped
    rw [if_neg (newline_ne_mark quote)] at stepped
    exact absurd stepped unfinished
  | openedTwice quote =>
    dsimp only [step] at stepped
    rw [if_neg (newline_ne_mark quote)] at stepped
    exact started stepped
  | blockStart quote =>
    cases stepped
    cases finished
  | content quote block text => exact absurd stepped unfinished
  | marks quote text count =>
    dsimp only [step] at stepped
    rw [if_neg (newline_ne_mark quote)] at stepped
    exact absurd stepped unfinished
  | closing quote text extra =>
    dsimp only [step] at stepped
    rw [if_neg fun marked => newline_ne_mark quote marked.1] at stepped
    exact started stepped
  | escape block text =>
    cases block with
    | false => cases stepped
    | true =>
      cases stepped
      cases finished
  | code block text left value => cases stepped
  | lineEnd text =>
    cases stepped
    cases finished
  | joined text =>
    cases stepped
    cases finished

end Lexer

/-- A character is kept unless it is a carriage return with a newline behind it. -/
theorem foldLineEnds_cons {c : Char} {rest : List Char}
    (kept : c = '\r' → rest.head? ≠ some '\n') :
    foldLineEnds (c :: rest) = c :: foldLineEnds rest := by
  rw [foldLineEnds]
  rintro _ rfl rfl
  exact kept rfl rfl

theorem foldLineEnds_folded (rest : List Char) :
    foldLineEnds ('\r' :: '\n' :: rest) = foldLineEnds ('\n' :: rest) :=
  (foldLineEnds_cons fun isReturn => absurd isReturn (by decide)).symm

/-- The line ends of a text that ends in a newline are folded apart from those behind it. -/
theorem foldLineEnds_line (body : List Char) :
    ∃ before, ∀ more,
      foldLineEnds (body ++ '\n' :: more) = before ++ '\n' :: foldLineEnds more := by
  induction body with
  | nil => exact ⟨[], fun more => foldLineEnds_cons fun isReturn => absurd isReturn (by decide)⟩
  | cons c rest ih =>
    obtain ⟨before, folded⟩ := ih
    by_cases ends : c = '\r' ∧ (rest ++ ['\n']).head? = some '\n'
    · obtain ⟨rfl, isNewline⟩ := ends
      refine ⟨before, fun more => ?_⟩
      rw [← folded]
      cases rest with
      | nil => exact foldLineEnds_folded more
      | cons d rest =>
        cases isNewline
        exact foldLineEnds_folded _
    · refine ⟨c :: before, fun more => ?_⟩
      rw [List.cons_append, foldLineEnds_cons, folded, List.cons_append]
      intro isReturn isNewline
      refine ends ⟨isReturn, ?_⟩
      cases rest with
      | nil => rfl
      | cons d rest => exact isNewline

theorem dropMark_cons {c : Char} (unmarked : c ≠ '\uFEFF') (rest : List Char) :
    dropMark (c :: rest) = c :: rest := by
  rw [dropMark]
  rintro _ same
  exact unmarked (List.cons.inj same).1

theorem dropMark_append {l m : List Char} (first : dropMark l = l) (second : dropMark m = m) :
    dropMark (l ++ m) = l ++ m := by
  cases l with
  | nil => exact second
  | cons c rest =>
    refine dropMark_cons ?_ (rest ++ m)
    rintro rfl
    have same : rest = '\uFEFF' :: rest := first
    exact absurd (congrArg List.length same) (by simp)

/-- The text is cut into `ts`, whole lines, whatever is before it and behind it. -/
structure CutsInto (text : List Char) (ts : List Token) : Prop where
  unmarked : dropMark text = text
  whole : ts = [] ∨ EndsLine ts
  cuts : ∀ before more, (foldLineEnds (text ++ more)).foldlM Lexer.step ⟨.between, before⟩ =
    (foldLineEnds more).foldlM Lexer.step ⟨.between, ts.reverse ++ before⟩

namespace CutsInto

variable {text more : List Char} {ts us : List Token}

theorem append (cuts : CutsInto text ts) (rest : CutsInto more us) :
    CutsInto (text ++ more) (ts ++ us) where
  unmarked := dropMark_append cuts.unmarked rest.unmarked
  whole := by
    rcases rest.whole with rfl | ends
    · rw [List.append_nil]
      exact cuts.whole
    · exact .inr ends.append
  cuts before behind := by
    rw [List.append_assoc, cuts.cuts, rest.cuts, List.reverse_append, List.append_assoc]

theorem tokens?_eq (cuts : CutsInto text ts) : tokens? text = some ts := by
  have run := cuts.cuts [] []
  rw [List.append_nil, List.append_nil] at run
  rw [tokens?, cuts.unmarked, run]
  exact congrArg some (List.reverse_reverse ts)

/-- A text that ends in a newline is cut as it is alone. -/
theorem of_tokens? {body : List Char} (unmarked : dropMark (body ++ ['\n']) = body ++ ['\n'])
    (cut : tokens? (body ++ ['\n']) = some ts) : CutsInto (body ++ ['\n']) ts := by
  obtain ⟨inner, folded⟩ := foldLineEnds_line body
  rw [tokens?, unmarked, folded, foldLineEnds] at cut
  obtain ⟨last, run, finished⟩ := Option.bind_eq_some_iff.1 cut
  obtain ⟨tokens, rfl⟩ : ∃ tokens, last = ⟨.between, .newline :: tokens⟩ := by
    rw [List.foldlM_append, Option.bind_eq_bind] at run
    obtain ⟨r, _, stepped⟩ := Option.bind_eq_some_iff.1 run
    obtain ⟨next, stepped, same⟩ := Option.bind_eq_some_iff.1 stepped
    cases same
    exact Lexer.step_newline stepped finished
  cases finished
  refine ⟨unmarked, .inr ?_, fun before more => ?_⟩
  · rw [List.reverse_cons]
    exact EndsLine.newline.append
  · have runAfter := Lexer.run_after before (inner ++ ['\n']) ⟨.between, []⟩
    rw [run] at runAfter
    rw [List.append_assoc, List.singleton_append, folded, List.append_cons, List.foldlM_append,
      List.reverse_reverse]
    exact congrArg (· >>= (foldLineEnds more).foldlM Lexer.step) runAfter

end CutsInto

/-- The statements of a text. -/
def statementsOf? (text : String) : Option (List Statement) := do
  let tokens ← tokens? text.toList
  statements tokens

/-- The text is made of whole lines with these statements, whatever stands before and behind it. -/
def ReadsAs (text : String) (sts : List Statement) : Prop :=
  ∃ ts, CutsInto text.toList ts ∧ statements ts = some sts

namespace ReadsAs

variable {text : String} {sts : List Statement}

theorem empty : ReadsAs "" [] :=
  ⟨[], ⟨rfl, .inl rfl, fun _ _ => rfl⟩, rfl⟩

theorem append {more : String} {others : List Statement} (reads : ReadsAs text sts)
    (rest : ReadsAs more others) : ReadsAs (text ++ more) (sts ++ others) := by
  obtain ⟨ts, cuts, areStatements⟩ := reads
  obtain ⟨us, cutsRest, areOthers⟩ := rest
  refine ⟨ts ++ us, ?_, statements_append cuts.whole areStatements areOthers⟩
  rw [String.toList_append]
  exact cuts.append cutsRest

theorem join {ι : Type} {items : List ι} {text : ι → String} {sts : ι → List Statement}
    (each : ∀ i ∈ items, ReadsAs (text i) (sts i)) :
    ReadsAs (String.join (items.map text)) (items.flatMap sts) := by
  induction items with
  | nil => exact empty
  | cons i items ih =>
    rw [List.map_cons, String.join_cons, List.flatMap_cons]
    exact (each i List.mem_cons_self).append (ih fun j mem => each j (List.mem_cons_of_mem _ mem))

/-- A text that ends in a newline is read as it is alone. -/
theorem of_statementsOf? {body : String}
    (unmarked : dropMark (body ++ "\n").toList = (body ++ "\n").toList)
    (read : statementsOf? (body ++ "\n") = some sts) : ReadsAs (body ++ "\n") sts := by
  obtain ⟨ts, cut, areStatements⟩ := Option.bind_eq_some_iff.1 read
  rw [String.toList_append] at unmarked cut
  refine ⟨ts, ?_, areStatements⟩
  rw [String.toList_append]
  exact .of_tokens? unmarked cut

theorem statementsOf?_eq (reads : ReadsAs text sts) : statementsOf? text = some sts := by
  obtain ⟨ts, cuts, areStatements⟩ := reads
  rw [statementsOf?, cuts.tokens?_eq, Option.bind_eq_bind, Option.bind_some, areStatements]

/-- The table of the text is the one of its statements. -/
theorem ofText?_eq (reads : ReadsAs text sts) :
    Table.ofText? text = (do
      let sections ← Section.ofStatements sts
      some (Section.table none sections)) := by
  obtain ⟨ts, cuts, areStatements⟩ := reads
  rw [Table.ofText?, cuts.tokens?_eq, Option.bind_eq_bind, Option.bind_some, areStatements,
    Option.bind_eq_bind, Option.bind_some]

end ReadsAs

theorem Lines.whole {ts : List Token} {sts : List Statement} (lines : Lines ts sts) :
    ts = [] ∨ EndsLine ts := by
  have behind : ∀ us : List Token, us = [] ∨ EndsLine us → EndsLine (.newline :: us) := by
    rintro _ (rfl | ends)
    · exact .newline
    · exact .cons _ ends
  induction lines with
  | done => exact .inl rfl
  | empty _ ih => exact .inr (behind _ ih)
  | line first _ ih => exact .inr (behind _ ih).append

/-- What is spelled line by line is read so. -/
theorem Spells.readsAs {text : String} {sts : List Statement} (spells : Spells text sts) :
    ReadsAs text sts := by
  obtain ⟨ts, lines, written⟩ := spells
  refine ⟨ts, ?_, lines.statements_eq⟩
  have unmarked := dropMark_text lines.plain
  have cut := tokens?_text lines.plain lines.apart
  rw [written]
  rcases lines.whole with rfl | ends
  · exact ⟨rfl, .inl rfl, fun _ _ => rfl⟩
  · obtain ⟨before, rfl⟩ := ends.exists_append
    rw [List.flatMap_append, List.flatMap_singleton] at unmarked cut ⊢
    exact .of_tokens? unmarked cut

end WordFields.Toml
