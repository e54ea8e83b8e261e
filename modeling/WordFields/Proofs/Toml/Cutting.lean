import Mathlib.Data.List.Chain
import WordFields.Layout.Writing
import WordFields.Toml.Lexer

/-!
# Tokens are cut back from their text

Every token has a plain spelling. A list of tokens is cut back from its text if no token continues
the one before it: words and blanks must not meet their like, and an empty string must not meet
another. The lexer is followed from token to token; between two of them it is settled, which means
that one more token is complete as soon as the next character does not continue it.
-/

set_option autoImplicit false

namespace WordFields.Toml

/-- How a token is written. -/
def Token.text : Token → List Char
  | .newline => ['\n']
  | .blank text => text
  | .word text => text
  | .quoted text _ => '"' :: text.toList.flatMap escapedChar ++ ['"']
  | .equals => ['=']
  | .dot => ['.']
  | .comma => [',']
  | .colon => [':']
  | .plus => ['+']
  | .openBrace => ['\x7b']
  | .closeBrace => ['\x7d']
  | .openBracket => ['[']
  | .closeBracket => [']']

/-- The token is read from its text: it is not empty, holds only characters of its class, and is
written on one line. -/
def Token.Plain : Token → Prop
  | .blank text => text ≠ [] ∧ ∀ c ∈ text, isBlank c = true
  | .word text => text ≠ [] ∧ ∀ c ∈ text, isBare c = true
  | .quoted _ block => block = false
  | _ => True

def Token.isWord : Token → Bool
  | .word _ => true
  | _ => false

def Token.isSpace : Token → Bool
  | .blank _ => true
  | _ => false

def Token.isString : Token → Bool
  | .quoted _ _ => true
  | _ => false

/-- The second token would be taken as a part of the first. -/
def Token.continues (first second : Token) : Bool :=
  (first.isWord && second.isWord) || (first.isSpace && second.isSpace) ||
    (first.isString && second.isString)

theorem word_continues (text : List Char) (t : Token) :
    (Token.word text).continues t = t.isWord := by
  simp [Token.continues, Token.isWord, Token.isSpace, Token.isString]

theorem blank_continues (text : List Char) (t : Token) :
    (Token.blank text).continues t = t.isSpace := by
  simp [Token.continues, Token.isWord, Token.isSpace, Token.isString]

theorem quoted_continues (text : String) (block : Bool) (t : Token) :
    (Token.quoted text block).continues t = t.isString := by
  simp [Token.continues, Token.isWord, Token.isSpace, Token.isString]

/-- The tokens that are complete once no character continues the last one. -/
inductive Settled : Lexer → List Token → Prop
  | between (tokens : List Token) : Settled ⟨.between, tokens⟩ tokens
  | word (text : List Char) (tokens : List Token) :
      Settled ⟨.word text, tokens⟩ (.word text.reverse :: tokens)
  | blank (text : List Char) (tokens : List Token) :
      Settled ⟨.blank text, tokens⟩ (.blank text.reverse :: tokens)
  | empty (tokens : List Token) :
      Settled ⟨.openedTwice .basic, tokens⟩ (.quoted "" false :: tokens)

theorem isBlank_of_isBare {c : Char} (bare : isBare c = true) : isBlank c = false := by
  cases blank : isBlank c with
  | false => rfl
  | true =>
    simp only [isBlank, Bool.or_eq_true, beq_iff_eq] at blank
    rcases blank with rfl | rfl <;> revert bare <;> decide

theorem word_cut (text acc : List Char) (bare : ∀ c ∈ text, isBare c = true) (tokens : List Token) :
    text.foldlM Lexer.step ⟨.word acc, tokens⟩ = some ⟨.word (text.reverse ++ acc), tokens⟩ := by
  induction text generalizing acc with
  | nil => rfl
  | cons c rest ih =>
    have step : Lexer.step ⟨.word acc, tokens⟩ c = some ⟨.word (c :: acc), tokens⟩ :=
      if_pos (bare c List.mem_cons_self)
    rw [List.foldlM_cons, step, Option.bind_eq_bind, Option.bind_some,
      ih (c :: acc) fun d mem => bare d (List.mem_cons_of_mem _ mem)]
    simp

theorem blank_cut (text acc : List Char) (blank : ∀ c ∈ text, isBlank c = true)
    (tokens : List Token) :
    text.foldlM Lexer.step ⟨.blank acc, tokens⟩ = some ⟨.blank (text.reverse ++ acc), tokens⟩ := by
  induction text generalizing acc with
  | nil => rfl
  | cons c rest ih =>
    have step : Lexer.step ⟨.blank acc, tokens⟩ c = some ⟨.blank (c :: acc), tokens⟩ :=
      if_pos (blank c List.mem_cons_self)
    rw [List.foldlM_cons, step, Option.bind_eq_bind, Option.bind_some,
      ih (c :: acc) fun d mem => blank d (List.mem_cons_of_mem _ mem)]
    simp

theorem hexDigit?_upperHexDigit : ∀ n, n < 16 → Lexer.hexDigit? (upperHexDigit n) = some n := by
  decide

theorem scalar?_toNat (c : Char) : Lexer.scalar? c.toNat = some c := by
  have valid : c.toNat.isValidChar := c.valid
  rw [Lexer.scalar?, if_pos valid, Char.ofNat_toNat]

/-- The three ways in which a character is written in a string: as a backslash and a letter, as its
code point, or as itself. -/
inductive Escape (c : Char) : Prop where
  | short (letter : Char) (written : escapedChar c = ['\\', letter])
      (read : ∀ text tokens, Lexer.escaped false text tokens letter =
        some ⟨.content .basic false (c :: text), tokens⟩)
      (kept : letter ≠ '\r')
  | code (small : c.toNat < 0x80)
      (written : escapedChar c = ['\\', 'u', '0', '0', upperHexDigit (c.toNat / 16),
        upperHexDigit (c.toNat % 16)])
  | plain (written : escapedChar c = [c]) (text : isTextChar c = true) (quote : c ≠ '"')
      (backslash : c ≠ '\\') (newline : c ≠ '\n') (carriage : c ≠ '\r')

theorem escape_of (c : Char) : Escape c := by
  by_cases letters : c ∈ ['\x08', '\t', '\n', '\x0c', '\r', '"', '\\']
  · simp only [List.mem_cons, List.not_mem_nil, or_false] at letters
    rcases letters with rfl | rfl | rfl | rfl | rfl | rfl | rfl <;>
      exact .short _ rfl (fun _ _ => rfl) (by decide)
  · simp only [List.mem_cons, List.not_mem_nil, or_false, not_or] at letters
    obtain ⟨h1, h2, h3, h4, h5, h6, h7⟩ := letters
    by_cases control : c.toNat < 0x20 ∨ c.toNat = 0x7f
    · refine .code (by omega) ?_
      simp [escapedChar, h1, h2, h3, h4, h5, h6, h7, control]
    · refine .plain ?_ ?_ h6 h7 h3 h5
      · simp [escapedChar, h1, h2, h3, h4, h5, h6, h7, control]
      · have shown : 0x20 ≤ c.toNat ∧ c.toNat ≠ 0x7f := by omega
        simp [isTextChar, shown]

theorem inside_plain {c : Char} (text : isTextChar c = true) (quote : c ≠ '"')
    (backslash : c ≠ '\\') (newline : c ≠ '\n') (acc : List Char) (tokens : List Token) :
    Lexer.inside .basic false acc tokens c = some ⟨.content .basic false (c :: acc), tokens⟩ := by
  simp [Lexer.inside, Quote.mark, text, quote, backslash, newline]

theorem code_digit {c : Char} {digit : Nat} (isDigit : Lexer.hexDigit? c = some digit)
    (block : Bool) (acc : List Char) (left value : Nat) (tokens : List Token) :
    Lexer.step ⟨.code block acc (left + 2) value, tokens⟩ c =
      some ⟨.code block acc (left + 1) (16 * value + digit), tokens⟩ := by
  simp [Lexer.step, isDigit]

theorem code_last {c char : Char} {digit : Nat} (isDigit : Lexer.hexDigit? c = some digit)
    (block : Bool) (acc : List Char) (value : Nat) (tokens : List Token)
    (scalar : Lexer.scalar? (16 * value + digit) = some char) :
    Lexer.step ⟨.code block acc 1 value, tokens⟩ c =
      some ⟨.content .basic block (char :: acc), tokens⟩ := by
  simp [Lexer.step, isDigit, scalar]

/-- Each character of a string's text is read back from the way it is written. -/
theorem escapedChar_cut (c : Char) (acc : List Char) (tokens : List Token) :
    (escapedChar c).foldlM Lexer.step ⟨.content .basic false acc, tokens⟩ =
      some ⟨.content .basic false (c :: acc), tokens⟩ := by
  cases escape_of c with
  | short letter written read _ =>
    rw [written]
    change (Lexer.escaped false acc tokens letter >>= fun r => some r) = _
    rw [read]
    rfl
  | code small written =>
    have high := hexDigit?_upperHexDigit (c.toNat / 16) (by omega)
    have low := hexDigit?_upperHexDigit (c.toNat % 16) (by omega)
    have value : 16 * (16 * 0 + c.toNat / 16) + c.toNat % 16 = c.toNat := by omega
    have scalar := scalar?_toNat c
    rw [← value] at scalar
    -- The backslash, the mark and two zeros are the same for every such character.
    have opening : ['\\', 'u', '0', '0'].foldlM Lexer.step ⟨.content .basic false acc, tokens⟩ =
        some ⟨.code false acc 2 0, tokens⟩ := rfl
    rw [written, ← List.singleton_append, ← List.singleton_append]
    change (['\\', 'u', '0', '0'] ++ [_, _]).foldlM Lexer.step _ = _
    rw [List.foldlM_append, opening, Option.bind_eq_bind, Option.bind_some, List.foldlM_cons,
      code_digit high, Option.bind_eq_bind, Option.bind_some, List.foldlM_cons,
      code_last low _ _ _ _ scalar]
    rfl
  | plain written text quote backslash newline _ =>
    rw [written]
    change (Lexer.inside .basic false acc tokens c >>= fun r => some r) = _
    rw [inside_plain text quote backslash newline]
    rfl

theorem escaped_cut (text acc : List Char) (tokens : List Token) :
    (text.flatMap escapedChar).foldlM Lexer.step ⟨.content .basic false acc, tokens⟩ =
      some ⟨.content .basic false (text.reverse ++ acc), tokens⟩ := by
  induction text generalizing acc with
  | nil => rfl
  | cons c rest ih =>
    rw [List.flatMap_cons, List.foldlM_append, escapedChar_cut, Option.bind_eq_bind,
      Option.bind_some, ih]
    simp

/-- Behind the opening mark the first character of the text is read as any later one, since it is
never the mark itself. -/
theorem opened_cut (c : Char) (tokens : List Token) :
    (escapedChar c).foldlM Lexer.step ⟨.opened .basic, tokens⟩ =
      (escapedChar c).foldlM Lexer.step ⟨.content .basic false [], tokens⟩ := by
  have same : ∀ first : Char, first ≠ '"' → Lexer.step ⟨.opened .basic, tokens⟩ first =
      Lexer.step ⟨.content .basic false [], tokens⟩ first := by
    intro first other
    exact if_neg other
  cases escape_of c with
  | short letter written _ _ => rw [written, List.foldlM_cons, List.foldlM_cons, same _ (by decide)]
  | code _ written => rw [written, List.foldlM_cons, List.foldlM_cons, same _ (by decide)]
  | plain written _ quote _ _ _ =>
    rw [written, List.foldlM_cons, List.foldlM_cons, same _ quote]

/-- A string is read back from its text; an empty one waits for a third mark. -/
theorem quoted_cut (text : String) (tokens : List Token) :
    ∃ r, (Token.quoted text false).text.foldlM Lexer.step ⟨.between, tokens⟩ = some r ∧
      Settled r (.quoted text false :: tokens) := by
  have opening : Lexer.step ⟨.between, tokens⟩ '"' = some ⟨.opened .basic, tokens⟩ := rfl
  simp only [Token.text, List.cons_append, List.foldlM_cons, opening, Option.bind_eq_bind,
    Option.bind_some]
  cases chars : text.toList with
  | nil =>
    have blank : text = "" := String.toList_eq_nil_iff.1 chars
    subst blank
    exact ⟨_, rfl, .empty tokens⟩
  | cons c rest =>
    rw [List.flatMap_cons, List.append_assoc, List.foldlM_append, opened_cut, escapedChar_cut,
      Option.bind_eq_bind, Option.bind_some, List.foldlM_append, escaped_cut, Option.bind_eq_bind,
      Option.bind_some]
    refine ⟨_, rfl, ?_⟩
    have content : Lexer.quotedToken (rest.reverse ++ [c]) false = .quoted text false := by
      simp [Lexer.quotedToken, ← chars]
    rw [← content]
    exact .between _

/-- A plain token is complete behind its text. -/
theorem token_cut {t : Token} (plain : t.Plain) (tokens : List Token) :
    ∃ r, t.text.foldlM Lexer.step ⟨.between, tokens⟩ = some r ∧ Settled r (t :: tokens) := by
  cases t with
  | blank text =>
    obtain ⟨nonempty, blank⟩ := plain
    obtain ⟨c, rest, rfl⟩ := List.exists_cons_of_ne_nil nonempty
    have first : Lexer.step ⟨.between, tokens⟩ c = some ⟨.blank [c], tokens⟩ :=
      if_pos (blank c List.mem_cons_self)
    refine ⟨⟨.blank (rest.reverse ++ [c]), tokens⟩, ?_, ?_⟩
    · rw [Token.text, List.foldlM_cons, first, Option.bind_eq_bind, Option.bind_some,
        blank_cut rest [c] fun d mem => blank d (List.mem_cons_of_mem _ mem)]
    · simpa using Settled.blank (rest.reverse ++ [c]) tokens
  | word text =>
    obtain ⟨nonempty, bare⟩ := plain
    obtain ⟨c, rest, rfl⟩ := List.exists_cons_of_ne_nil nonempty
    have bareFirst := bare c List.mem_cons_self
    have first : Lexer.step ⟨.between, tokens⟩ c = some ⟨.word [c], tokens⟩ := by
      simp [Lexer.step, Lexer.start, isBlank_of_isBare bareFirst, bareFirst]
    refine ⟨⟨.word (rest.reverse ++ [c]), tokens⟩, ?_, ?_⟩
    · rw [Token.text, List.foldlM_cons, first, Option.bind_eq_bind, Option.bind_some,
        word_cut rest [c] fun d mem => bare d (List.mem_cons_of_mem _ mem)]
    · simpa using Settled.word (rest.reverse ++ [c]) tokens
  | quoted text block =>
    cases plain
    exact quoted_cut text tokens
  | _ => exact ⟨_, rfl, .between _⟩

/-- The first character tells words, blanks and strings from all other tokens, and none starts with
a byte order mark. -/
structure FirstChar (t : Token) (c : Char) : Prop where
  bare : isBare c = t.isWord
  blank : isBlank c = t.isSpace
  quote : (c == '"') = t.isString
  unmarked : (c == '\uFEFF') = false

theorem firstChar_of_bare {c : Char} (bare : isBare c = true) (text : List Char) :
    FirstChar (.word text) c := by
  refine ⟨bare, isBlank_of_isBare bare, beq_eq_false_iff_ne.2 ?_, beq_eq_false_iff_ne.2 ?_⟩
  · rintro rfl
    revert bare
    decide
  · rintro rfl
    revert bare
    decide

theorem text_first {t : Token} (plain : t.Plain) :
    ∃ c rest, t.text = c :: rest ∧ FirstChar t c := by
  cases t with
  | blank text =>
    obtain ⟨nonempty, blank⟩ := plain
    obtain ⟨c, rest, rfl⟩ := List.exists_cons_of_ne_nil nonempty
    refine ⟨c, rest, rfl, ?_⟩
    have isFirst := blank c List.mem_cons_self
    simp only [isBlank, Bool.or_eq_true, beq_iff_eq] at isFirst
    rcases isFirst with rfl | rfl <;> exact ⟨rfl, rfl, rfl, rfl⟩
  | word text =>
    obtain ⟨nonempty, bare⟩ := plain
    obtain ⟨c, rest, rfl⟩ := List.exists_cons_of_ne_nil nonempty
    exact ⟨c, rest, rfl, firstChar_of_bare (bare c List.mem_cons_self) _⟩
  | _ => exact ⟨_, _, rfl, ⟨rfl, rfl, rfl, rfl⟩⟩

/-- A token that does not continue the pending one completes it. -/
theorem settled_cut {r : Lexer} {tokens : List Token} (settled : Settled r tokens) {t : Token}
    (plain : t.Plain) (apart : ∀ last, tokens.head? = some last → last.continues t = false) :
    t.text.foldlM Lexer.step r = t.text.foldlM Lexer.step ⟨.between, tokens⟩ := by
  obtain ⟨c, rest, written, first⟩ := text_first plain
  rw [written, List.foldlM_cons, List.foldlM_cons]
  cases settled with
  | between => rfl
  | word text before =>
    have notBare : ¬ isBare c = true := by
      rw [first.bare, ← word_continues, apart _ rfl]
      decide
    have step : Lexer.step ⟨.word text, before⟩ c =
        Lexer.step ⟨.between, .word text.reverse :: before⟩ c := if_neg notBare
    rw [step]
  | blank text before =>
    have notBlank : ¬ isBlank c = true := by
      rw [first.blank, ← blank_continues, apart _ rfl]
      decide
    have step : Lexer.step ⟨.blank text, before⟩ c =
        Lexer.step ⟨.between, .blank text.reverse :: before⟩ c := if_neg notBlank
    rw [step]
  | empty before =>
    have notQuote : ¬ c = '"' := by
      rw [← beq_iff_eq, first.quote, ← quoted_continues, apart _ rfl]
      decide
    have step : Lexer.step ⟨.openedTwice .basic, before⟩ c =
        Lexer.step ⟨.between, .quoted "" false :: before⟩ c := if_neg notQuote
    rw [step]

/-- No token of the list continues the one before it. -/
def Apart (tokens : List Token) : Prop := tokens.IsChain fun a b => a.continues b = false

/-- The run of the lexer over the text of a list of tokens, by induction over the tokens: it is
settled behind each of them. -/
theorem tokens_cut {tokens : List Token} (plain : ∀ t ∈ tokens, t.Plain) {r : Lexer}
    {before : List Token} (settled : Settled r before)
    (apart : Apart (before.head?.toList ++ tokens)) :
    ∃ final, (tokens.flatMap Token.text).foldlM Lexer.step r = some final ∧
      Settled final (tokens.reverse ++ before) := by
  induction tokens generalizing r before with
  | nil => exact ⟨r, rfl, settled⟩
  | cons t rest ih =>
    have plainFirst := plain t List.mem_cons_self
    obtain ⟨_, apartRest, meets⟩ := List.isChain_append.1 apart
    have separate : ∀ last, before.head? = some last → last.continues t = false := by
      intro last isLast
      exact meets last (by rw [isLast]; rfl) t rfl
    obtain ⟨next, cut, settledNext⟩ := token_cut plainFirst before
    obtain ⟨final, cutRest, settledFinal⟩ := ih (fun u mem => plain u (List.mem_cons_of_mem _ mem))
      settledNext apartRest
    refine ⟨final, ?_, ?_⟩
    · rw [List.flatMap_cons, List.foldlM_append, settled_cut settled plainFirst separate, cut,
        Option.bind_eq_bind, Option.bind_some, cutRest]
    · simpa using settledFinal

theorem settled_finish {r : Lexer} {tokens : List Token} (settled : Settled r tokens) :
    r.finish = some tokens.reverse := by
  cases settled <;> rfl

theorem foldLineEnds_of_no_return {text : List Char} (noReturn : '\r' ∉ text) :
    foldLineEnds text = text := by
  induction text with
  | nil => rfl
  | cons c rest ih =>
    obtain ⟨other, noReturnRest⟩ := not_or.1 (List.mem_cons.not.1 noReturn)
    rw [foldLineEnds, ih noReturnRest]
    rintro _ rfl
    exact absurd rfl other

/-- A string is written on one line. -/
theorem escapedChar_no_lineEnd (c : Char) {e : Char} (isEnd : e = '\n' ∨ e = '\r') :
    e ∉ escapedChar c := by
  cases escape_of c with
  | short letter written read kept =>
    have other : letter ≠ '\n' := by
      rintro rfl
      cases read [] []
    rw [written]
    rcases isEnd with rfl | rfl
    · simp [other.symm]
    · simp [kept.symm]
  | code small written =>
    have noDigit : ∀ n, n < 16 → upperHexDigit n ≠ '\n' ∧ upperHexDigit n ≠ '\r' := by decide
    have high := noDigit (c.toNat / 16) (by omega)
    have low := noDigit (c.toNat % 16) (by omega)
    rw [written]
    rcases isEnd with rfl | rfl
    · simp [high.1.symm, low.1.symm]
    · simp [high.2.symm, low.2.symm]
  | plain written _ _ _ newline carriage =>
    rw [written]
    rcases isEnd with rfl | rfl
    · simp [newline.symm]
    · simp [carriage.symm]

/-- Of the tokens only the newline holds the end of a line. -/
theorem text_no_lineEnd {t : Token} (plain : t.Plain) (inLine : t ≠ .newline) {e : Char}
    (isEnd : e = '\n' ∨ e = '\r') : e ∉ t.text := by
  cases t with
  | newline => exact absurd rfl inLine
  | blank text =>
    intro mem
    have blank := plain.2 _ mem
    rcases isEnd with rfl | rfl <;> revert blank <;> decide
  | word text =>
    intro mem
    have bare := plain.2 _ mem
    rcases isEnd with rfl | rfl <;> revert bare <;> decide
  | quoted text block =>
    intro mem
    simp only [Token.text, List.cons_append, List.mem_cons, List.mem_append, List.mem_flatMap,
      List.not_mem_nil, or_false] at mem
    have noMark : e ≠ '"' := by rcases isEnd with rfl | rfl <;> decide
    rcases mem with same | ⟨c, _, inside⟩ | same
    · exact noMark same
    · exact escapedChar_no_lineEnd c isEnd inside
    · exact noMark same
  | _ => rcases isEnd with rfl | rfl <;> decide

theorem text_no_return {t : Token} (plain : t.Plain) : '\r' ∉ t.text := by
  by_cases newline : t = .newline
  · rw [newline]
    decide
  · exact text_no_lineEnd plain newline (.inr rfl)

theorem dropMark_text {tokens : List Token} (plain : ∀ t ∈ tokens, t.Plain) :
    dropMark (tokens.flatMap Token.text) = tokens.flatMap Token.text := by
  cases tokens with
  | nil => rfl
  | cons t rest =>
    obtain ⟨c, chars, written, first⟩ := text_first (plain t List.mem_cons_self)
    rw [List.flatMap_cons, written, List.cons_append, dropMark]
    intro _ same
    obtain ⟨rfl, -⟩ := List.cons.inj same
    exact absurd first.unmarked (by decide)

/-- Cutting inverts writing: tokens that keep apart are cut back from their text. -/
theorem tokens?_text {tokens : List Token} (plain : ∀ t ∈ tokens, t.Plain) (apart : Apart tokens) :
    tokens? (tokens.flatMap Token.text) = some tokens := by
  have noReturn : '\r' ∉ tokens.flatMap Token.text := by
    intro mem
    obtain ⟨t, inTokens, inText⟩ := List.mem_flatMap.1 mem
    exact text_no_return (plain t inTokens) inText
  obtain ⟨final, cut, settled⟩ := tokens_cut plain (.between []) apart
  unfold tokens?
  rw [dropMark_text plain, foldLineEnds_of_no_return noReturn, cut, Option.bind_eq_bind,
    Option.bind_some, settled_finish settled]
  simp

end WordFields.Toml
