import WordFields.Proofs.Toml.Values
import WordFields.Toml.Section

/-!
# Lines of tokens are read as their statements

A text is written line by line. A line is cut and read alone: its tokens keep apart, it ends in a
newline, and what is read of it does not depend on the lines behind it. So a text made of lines has
the statements of its lines. Nor can other lines make up for one that is no statement: it spoils the
whole text.
-/

set_option autoImplicit false

namespace WordFields.Toml

/-- The tokens of a line, its newline apart, that are read as `st` whatever lines follow. -/
structure Line (line : List Token) (st : Statement) : Prop extends Phrase line where
  reads : ∀ rest, statement (line ++ .newline :: rest) = some (st, .newline :: rest)

/-- A line takes one step of the bound, and the lines behind it are left. -/
theorem statementsWithin_line {line : List Token} {st : Statement} (isLine : Line line st)
    (bound : Nat) (rest : List Token) :
    statementsWithin (bound + 1) (line ++ .newline :: rest) = (do
      let others ← statementsWithin bound rest
      some (st :: others)) := by
  rw [statementsWithin, isLine.skipLines_append]
  split
  next nothing => simp at nothing
  next =>
    rw [isLine.reads, Option.bind_eq_bind, Option.bind_some]
    rfl

/-- Tokens made of lines, with their statements; lines may be empty. -/
inductive Lines : List Token → List Statement → Prop
  | done : Lines [] []
  | empty {ts : List Token} {sts : List Statement} (rest : Lines ts sts) :
      Lines (.newline :: ts) sts
  | line {first ts : List Token} {st : Statement} {sts : List Statement} (line : Line first st)
      (rest : Lines ts sts) : Lines (first ++ .newline :: ts) (st :: sts)

namespace Lines

theorem append {ts us : List Token} {sts more : List Statement} (lines : Lines ts sts)
    (rest : Lines us more) : Lines (ts ++ us) (sts ++ more) := by
  induction lines with
  | done => exact rest
  | empty _ ih => exact .empty ih
  | line first _ ih =>
    rw [List.append_assoc, List.cons_append, List.cons_append]
    exact .line first ih

theorem plain {ts : List Token} {sts : List Statement} (lines : Lines ts sts) :
    ∀ t ∈ ts, t.Plain := by
  induction lines with
  | done => simp
  | empty _ ih => exact List.forall_mem_cons.2 ⟨trivial, ih⟩
  | line first _ ih =>
    exact List.forall_mem_append.2 ⟨first.plain, List.forall_mem_cons.2 ⟨trivial, ih⟩⟩

theorem apart {ts : List Token} {sts : List Statement} (lines : Lines ts sts) : Apart ts := by
  induction lines with
  | done => exact .nil
  | empty _ ih => exact apart_append_mark (l := []) rfl .nil ih
  | line first _ ih => exact apart_append_mark rfl first.apart ih

theorem statementsWithin_eq {ts : List Token} {sts : List Statement} (lines : Lines ts sts)
    {bound : Nat} (enough : ts.length < bound) : statementsWithin bound ts = some sts := by
  induction lines generalizing bound with
  | done =>
    obtain ⟨left, rfl⟩ := Nat.exists_eq_add_one_of_ne_zero (Nat.ne_of_gt enough)
    rfl
  | @empty ts sts rest ih =>
    obtain ⟨left, rfl⟩ := Nat.exists_eq_add_one_of_ne_zero (Nat.ne_zero_of_lt enough)
    rw [List.length_cons] at enough
    have same : statementsWithin (left + 1) ts = some sts := ih (by omega)
    rw [statementsWithin] at same ⊢
    exact same
  | @line first ts st sts line rest ih =>
    obtain ⟨left, rfl⟩ := Nat.exists_eq_add_one_of_ne_zero (Nat.ne_zero_of_lt enough)
    rw [List.length_append, List.length_cons] at enough
    rw [statementsWithin_line line, ih (by omega)]
    rfl

theorem statements_eq {ts : List Token} {sts : List Statement} (lines : Lines ts sts) :
    statements ts = some sts :=
  statementsWithin_eq lines (Nat.lt_succ_self _)

end Lines

/-- A path starts with a key, which is neither a mark nor a blank. -/
theorem pathTokens_cons (key : String) (path : List String) :
    ∃ more, pathTokens (key :: path) = keyToken key :: more := by
  cases path with
  | nil => exact ⟨_, rfl⟩
  | cons => exact ⟨_, rfl⟩

/-- What is found of a pair, once its key is. -/
theorem statement_pair {path : List String} (nonempty : path ≠ []) {following left : List Token}
    (key : keyPath (pathTokens path ++ following) = some (path, .equals :: left)) :
    statement (pathTokens path ++ following) = (do
      let (found, left) ← value (skipBlank left)
      some (.pair path found, left)) := by
  obtain ⟨first, rest, rfl⟩ := List.exists_cons_of_ne_nil nonempty
  obtain ⟨more, starts⟩ := pathTokens_cons first rest
  rw [starts, List.cons_append] at key ⊢
  rcases keyToken_cases first with same | same <;> rw [same] at key ⊢ <;> simp [statement, key]

theorem pair_line {path : List String} (nonempty : path ≠ []) {ts : List Token} {node : Node}
    (isValue : ValueTokens ts node) : Line (pairTokens path ts) (.pair path node) where
  toPhrase := isValue.toPhrase.pair nonempty
  reads := by
    intro rest
    have ends : EndsKey (.blank [' '] :: .equals :: .blank [' '] :: (ts ++ .newline :: rest)) :=
      fun same => nomatch same
    have found : value (ts ++ .newline :: rest) = some (node, .newline :: rest) :=
      isValue.reads _ _ (by rw [List.length_append]; omega) ⟨by simp, by simp⟩
    rw [pairTokens, List.append_assoc]
    exact statement_eq_some_iff.2 (.pair (keyPath_pathTokens nonempty ends) found)

/-- The header `[path]`, its newline apart. -/
def headerTokens (path : List String) : List Token :=
  .openBracket :: (pathTokens path ++ [.closeBracket])

theorem header_line {path : List String} (nonempty : path ≠ []) :
    Line (headerTokens path) (.header ⟨path, false⟩) where
  toPhrase := by
    have inside : ∀ item ∈ [pathTokens path], Phrase item := by
      simpa using pathTokens_phrase nonempty
    exact .list rfl rfl rfl inside
  reads := by
    intro rest
    have ends : EndsKey (.closeBracket :: .newline :: rest) := fun same => nomatch same
    rw [headerTokens, List.cons_append, List.append_assoc]
    exact statement_eq_some_iff.2 (.header (keyPath_pathTokens nonempty ends))

theorem pairLine_toList {path : List String} {value : String} {ts : List Token}
    (written : value.toList = ts.flatMap Token.text) :
    (pairLine (pathText path) value).toList =
      (pairTokens path ts).flatMap Token.text ++ ['\n'] := by
  rw [← pairText_toList written]
  simp [pairLine, pairText, toString]

/-- The text is made of lines that are read as these statements. -/
def Spells (text : String) (sts : List Statement) : Prop :=
  ∃ ts, Lines ts sts ∧ text.toList = ts.flatMap Token.text

namespace Spells

theorem empty : Spells "" [] := ⟨[], .done, rfl⟩

theorem newline : Spells "\n" [] := ⟨[.newline], .empty .done, rfl⟩

theorem append {text more : String} {sts others : List Statement} (spells : Spells text sts)
    (rest : Spells more others) : Spells (text ++ more) (sts ++ others) := by
  obtain ⟨ts, lines, written⟩ := spells
  obtain ⟨us, linesRest, writtenRest⟩ := rest
  refine ⟨ts ++ us, lines.append linesRest, ?_⟩
  rw [String.toList_append, List.flatMap_append, written, writtenRest]

theorem join {ι : Type} {items : List ι} {text : ι → String} {sts : ι → List Statement}
    (each : ∀ i ∈ items, Spells (text i) (sts i)) :
    Spells (String.join (items.map text)) (items.flatMap sts) := by
  induction items with
  | nil => exact empty
  | cons i items ih =>
    rw [List.map_cons, String.join_cons, List.flatMap_cons]
    exact (each i List.mem_cons_self).append (ih fun j mem => each j (List.mem_cons_of_mem _ mem))

/-- Texts with something between them that has no statements. -/
theorem intercalate {ι : Type} {items : List ι} {text : ι → String} {sts : ι → List Statement}
    {gap : String} (between : Spells gap []) (each : ∀ i ∈ items, Spells (text i) (sts i)) :
    Spells (gap.intercalate (items.map text)) (items.flatMap sts) := by
  induction items with
  | nil => exact empty
  | cons i items ih =>
    have first := each i List.mem_cons_self
    have others := ih fun j mem => each j (List.mem_cons_of_mem _ mem)
    cases items with
    | nil => simpa using first
    | cons j items =>
      rw [List.map_cons] at others
      rw [List.map_cons, List.map_cons, String.intercalate_cons_cons, List.flatMap_cons]
      simpa using (first.append between).append others

theorem of_line {line : List Token} {st : Statement} (isLine : Line line st) {text : String}
    (written : text.toList = line.flatMap Token.text ++ ['\n']) : Spells text [st] := by
  refine ⟨line ++ [.newline], .line isLine .done, ?_⟩
  rw [written, List.flatMap_append]
  rfl

/-- The line `path = value`. -/
theorem pair {path : List String} (nonempty : path ≠ []) {value : String} {node : Node}
    (isValue : ValueText value node) :
    Spells (pairLine (pathText path) value) [.pair path node] := by
  obtain ⟨ts, isValue, written⟩ := isValue
  exact of_line (pair_line nonempty isValue) (pairLine_toList written)

/-- The line of a key that needs no quotes. -/
theorem bare {key : String} (isBare : (!key.toList.isEmpty && key.toList.all isBare) = true)
    {value : String} {node : Node} (isValue : ValueText value node) :
    Spells (pairLine key value) [.pair [key] node] := by
  have same := pair (List.cons_ne_nil key []) isValue
  rwa [pathText_bare isBare] at same

/-- The header of the table `path`. -/
theorem header {path : List String} (nonempty : path ≠ []) :
    Spells ("[" ++ pathText path ++ "]\n") [.header ⟨path, false⟩] := by
  refine of_line (header_line nonempty) ?_
  simp [headerTokens, pathText_toList, Token.text]

/-- The table of a text made of lines is the one of their statements. -/
theorem ofText?_eq {text : String} {sts : List Statement} (spells : Spells text sts) :
    Table.ofText? text = (do
      let sections ← Section.ofStatements sts
      some (Section.table none sections)) := by
  obtain ⟨ts, lines, written⟩ := spells
  rw [Table.ofText?, written, tokens?_text lines.plain lines.apart, Option.bind_eq_bind,
    Option.bind_some, lines.statements_eq, Option.bind_eq_bind, Option.bind_some]

end Spells

/-- The text is one line: it ends in a newline and has no other. -/
def OneLine (text : String) : Prop := ∃ body : String, text = body ++ "\n" ∧ '\n' ∉ body.toList

/-- A key is written on one line, whatever its characters. -/
theorem pathText_no_newline (path : List String) : '\n' ∉ (pathText path).toList := by
  have key (name : String) : '\n' ∉ (keyToken name).text := by
    refine text_no_lineEnd (keyToken_plain name) ?_ (.inl rfl)
    rcases keyToken_cases name with same | same <;> rw [same] <;> simp
  rw [pathText_toList]
  fun_induction pathTokens path with
  | case1 => exact List.not_mem_nil
  | case2 name => simpa using key name
  | case3 name path _ ih =>
    rw [List.flatMap_cons, List.flatMap_cons, List.mem_append, List.mem_append]
    exact not_or.2 ⟨key name, not_or.2 ⟨by decide, ih⟩⟩

theorem header_oneLine (path : List String) : OneLine ("[" ++ pathText path ++ "]\n") := by
  refine ⟨"[" ++ pathText path ++ "]", by simp [String.append_assoc], ?_⟩
  simpa using pathText_no_newline path

theorem pair_oneLine {key value : String} (keyBare : ∀ c ∈ key.toList, isBare c = true)
    (valueBare : ∀ c ∈ value.toList, isBare c = true) : OneLine (pairLine key value) := by
  have inKey : '\n' ∉ key.toList := fun mem => absurd (keyBare _ mem) (by decide)
  have inValue : '\n' ∉ value.toList := fun mem => absurd (valueBare _ mem) (by decide)
  refine ⟨key ++ " = " ++ value, by simp [pairLine, toString, String.append_assoc], ?_⟩
  simpa [inKey] using inValue

/-- The tokens of a line, its newline apart, that are no statement, whatever lines follow. -/
structure BrokenLine (line : List Token) : Prop extends Phrase line where
  fails : ∀ rest, statement (line ++ .newline :: rest) = none

theorem Line.not_broken {line : List Token} {st : Statement} (isLine : Line line st) :
    ¬ BrokenLine line := by
  intro broken
  have both := broken.fails []
  rw [isLine.reads] at both
  cases both

theorem statementsWithin_broken {line : List Token} (broken : BrokenLine line) (bound : Nat)
    (rest : List Token) : statementsWithin bound (line ++ .newline :: rest) = none := by
  cases bound with
  | zero => rfl
  | succ bound =>
    rw [statementsWithin, broken.skipLines_append]
    split
    next nothing => simp at nothing
    next =>
      rw [broken.fails]
      rfl

/-- A pair is no statement if its value is a word that is no value. -/
theorem broken_pair_line {path : List String} (nonempty : path ≠ []) {text : List Char}
    (plain : (Token.word text).Plain)
    (noValue : ∀ following, EndsNumber following → scalar (.word text) following = none) :
    BrokenLine (pairTokens path [.word text]) where
  toPhrase := (Phrase.word plain).pair nonempty
  fails := by
    intro rest
    have ends : EndsKey
        (.blank [' '] :: .equals :: .blank [' '] :: .word text :: .newline :: rest) :=
      fun same => nomatch same
    have missing : value (.word text :: .newline :: rest) = none := by
      simp [value, valueWithin, noValue (.newline :: rest) ⟨by simp, by simp⟩]
    rw [pairTokens, List.append_assoc]
    refine (statement_pair nonempty (keyPath_pathTokens nonempty ends)).trans ?_
    dsimp only [skipBlank]
    rw [missing]
    rfl

/-- Lines with their newlines. -/
def lineTokens (lines : List (List Token)) : List Token :=
  lines.flatMap fun line => line ++ [.newline]

section LineTokens

variable {lines : List (List Token)}

theorem lineTokens_cons (line : List Token) (lines : List (List Token)) :
    lineTokens (line :: lines) = line ++ .newline :: lineTokens lines := by
  rw [lineTokens, List.flatMap_cons, List.append_assoc]
  rfl

theorem lineTokens_plain (phrases : ∀ line ∈ lines, Phrase line) :
    ∀ t ∈ lineTokens lines, t.Plain := by
  induction lines with
  | nil => exact fun t mem => nomatch mem
  | cons line lines ih =>
    have others := ih fun other mem => phrases other (List.mem_cons_of_mem _ mem)
    rw [lineTokens_cons]
    exact List.forall_mem_append.2 ⟨(phrases line List.mem_cons_self).plain,
      List.forall_mem_cons.2 ⟨trivial, others⟩⟩

theorem lineTokens_apart (phrases : ∀ line ∈ lines, Phrase line) : Apart (lineTokens lines) := by
  induction lines with
  | nil => exact .nil
  | cons line lines ih =>
    rw [lineTokens_cons]
    exact apart_append_mark rfl (phrases line List.mem_cons_self).apart
      (ih fun other mem => phrases other (List.mem_cons_of_mem _ mem))

theorem join_lines_toList {ι : Type} {items : List ι} {text : ι → String} {line : ι → List Token}
    (written : ∀ i ∈ items, (text i).toList = (line i).flatMap Token.text ++ ['\n']) :
    (String.join (items.map text)).toList = (lineTokens (items.map line)).flatMap Token.text := by
  induction items with
  | nil => rfl
  | cons i items ih =>
    rw [List.map_cons, String.join_cons, List.map_cons, lineTokens_cons, String.toList_append,
      written i List.mem_cons_self, ih fun j mem => written j (List.mem_cons_of_mem _ mem)]
    simp [Token.text]

/-- One broken line among lines that are read or broken leaves nothing to be read. -/
theorem statementsWithin_lineTokens (each : ∀ line ∈ lines, (∃ st, Line line st) ∨ BrokenLine line)
    (broken : ∃ line ∈ lines, BrokenLine line) (bound : Nat) :
    statementsWithin bound (lineTokens lines) = none := by
  -- the lines before the first broken one are read, each taking a step of the bound
  induction lines generalizing bound with
  | nil =>
    obtain ⟨line, mem, -⟩ := broken
    cases mem
  | cons first lines ih =>
    rw [lineTokens_cons]
    rcases each first List.mem_cons_self with ⟨st, read⟩ | fails
    · have later : ∃ line ∈ lines, BrokenLine line := by
        obtain ⟨line, mem, fails⟩ := broken
        rcases List.mem_cons.1 mem with rfl | later
        · exact absurd fails read.not_broken
        · exact ⟨line, later, fails⟩
      cases bound with
      | zero => rfl
      | succ bound =>
        rw [statementsWithin_line read,
          ih (fun line mem => each line (List.mem_cons_of_mem _ mem)) later]
        rfl
    · exact statementsWithin_broken fails bound _

/-- A text of lines, one of them broken, is no table. -/
theorem ofText?_broken (each : ∀ line ∈ lines, (∃ st, Line line st) ∨ BrokenLine line)
    (broken : ∃ line ∈ lines, BrokenLine line) {text : String}
    (written : text.toList = (lineTokens lines).flatMap Token.text) :
    Table.ofText? text = none := by
  have phrases : ∀ line ∈ lines, Phrase line := by
    intro line mem
    rcases each line mem with ⟨st, read⟩ | fails
    · exact read.toPhrase
    · exact fails.toPhrase
  rw [Table.ofText?, written, tokens?_text (lineTokens_plain phrases) (lineTokens_apart phrases),
    Option.bind_eq_bind, Option.bind_some, statements, statementsWithin_lineTokens each broken]
  rfl

end LineTokens

end WordFields.Toml
