import WordFields.Proofs.Toml.Cutting
import WordFields.Toml.Statement

/-!
# Dotted keys are read back from their tokens

A dotted key is written with dots and no blanks. Its tokens keep apart from each other and from the
marks around them, which makes them a phrase: phrases are what lines and values are put together
from.
-/

set_option autoImplicit false

namespace WordFields.Toml

/-- The token of a name as a key. -/
def keyToken (name : String) : Token :=
  if !name.toList.isEmpty && name.toList.all isBare then .word name.toList else .quoted name false

theorem keyToken_text (name : String) : (keyToken name).text = keyText name := by
  unfold keyToken keyText
  split <;> rfl

theorem plain_of_bare {text : List Char} (bare : (!text.isEmpty && text.all isBare) = true) :
    (Token.word text).Plain := by
  simp only [Bool.and_eq_true, Bool.not_eq_true', List.isEmpty_eq_false_iff, List.all_eq_true]
    at bare
  exact bare

theorem space_plain : (Token.blank [' ']).Plain := by
  refine ⟨by decide, fun c mem => ?_⟩
  rw [List.mem_singleton.1 mem]
  rfl

theorem keyToken_plain (name : String) : (keyToken name).Plain := by
  unfold keyToken
  split
  next bare => exact plain_of_bare bare
  next => rfl

/-- A key is a word or a string, so no mark continues it and it continues none. -/
theorem keyToken_cases (name : String) :
    keyToken name = .word name.toList ∨ keyToken name = .quoted name false := by
  unfold keyToken
  split
  · exact .inl rfl
  · exact .inr rfl

/-- The token is a newline or a mark: it continues no token and none continues it. -/
def Token.isMark (t : Token) : Bool := !(t.isWord || t.isSpace || t.isString)

theorem continues_mark (t : Token) {mark : Token} (isMark : mark.isMark = true) :
    t.continues mark = false := by
  cases mark <;> simp_all [Token.isMark, Token.continues, Token.isWord, Token.isSpace,
    Token.isString]

theorem mark_continues {mark : Token} (isMark : mark.isMark = true) (t : Token) :
    mark.continues t = false := by
  cases mark <;> simp_all [Token.isMark, Token.continues, Token.isWord, Token.isSpace,
    Token.isString]

theorem mark_plain {mark : Token} (isMark : mark.isMark = true) : mark.Plain := by
  cases mark with
  | blank | word | quoted => cases isMark
  | _ => trivial

/-- The token can start a key or a value. -/
def Token.starts : Token → Bool
  | .word _ => true
  | .quoted _ _ => true
  | .openBracket => true
  | .openBrace => true
  | _ => false

theorem keyToken_starts (name : String) : (keyToken name).starts = true := by
  rcases keyToken_cases name with same | same <;> rw [same] <;> rfl

/-- Tokens that can stand behind a mark or a blank, and before one. -/
structure Phrase (ts : List Token) : Prop where
  plain : ∀ t ∈ ts, t.Plain
  apart : Apart ts
  starts : ∃ first rest, ts = first :: rest ∧ first.starts = true

namespace Phrase

variable {ts : List Token}

theorem skipLines_append (phrase : Phrase ts) (following : List Token) :
    skipLines (ts ++ following) = ts ++ following := by
  obtain ⟨first, rest, rfl, starts⟩ := phrase.starts
  cases first with
  | word | quoted | openBracket | openBrace => rfl
  | _ => cases starts

theorem skipBlank_append (phrase : Phrase ts) (following : List Token) :
    skipBlank (ts ++ following) = ts ++ following := by
  obtain ⟨first, rest, rfl, starts⟩ := phrase.starts
  cases first with
  | word | quoted | openBracket | openBrace => rfl
  | _ => cases starts

/-- What closes a list starts no phrase. -/
theorem ne_close (phrase : Phrase ts) {close : Token} (noStart : close.starts = false)
    (following left : List Token) : ts ++ following ≠ close :: left := by
  obtain ⟨first, rest, rfl, starts⟩ := phrase.starts
  intro same
  cases same
  rw [noStart] at starts
  cases starts

theorem behind_space (phrase : Phrase ts) : Apart (.blank [' '] :: ts) := by
  refine List.isChain_cons.2 ⟨?_, phrase.apart⟩
  obtain ⟨first, rest, rfl, starts⟩ := phrase.starts
  rintro _ ⟨⟩
  cases first with
  | word | quoted | openBracket | openBrace => rfl
  | _ => cases starts

end Phrase

theorem apart_append_mark {l r : List Token} {mark : Token} (isMark : mark.isMark = true)
    (apart : Apart l) (rest : Apart r) : Apart (l ++ mark :: r) := by
  refine List.isChain_append.2 ⟨apart, ?_, fun t _ u isNext => ?_⟩
  · exact List.isChain_cons.2 ⟨fun t _ => mark_continues isMark t, rest⟩
  · cases isNext
    exact continues_mark t isMark

/-- A dotted key. -/
def pathTokens : List String → List Token
  | [] => []
  | [key] => [keyToken key]
  | key :: path => keyToken key :: .dot :: pathTokens path

theorem pathTokens_phrase {path : List String} (nonempty : path ≠ []) :
    Phrase (pathTokens path) := by
  fun_induction pathTokens path with
  | case1 => exact absurd rfl nonempty
  | case2 key =>
    exact ⟨by simpa using keyToken_plain key, .singleton _, _, _, rfl, keyToken_starts key⟩
  | case3 key path more ih =>
    have phrase := ih more
    refine ⟨?_, ?_, _, _, rfl, keyToken_starts key⟩
    · exact List.forall_mem_cons.2
        ⟨keyToken_plain key, List.forall_mem_cons.2 ⟨trivial, phrase.plain⟩⟩
    · exact apart_append_mark (l := [keyToken key]) rfl (.singleton _) phrase.apart

/-- The key ends here: no dot follows it, not even behind a blank. -/
def EndsKey (following : List Token) : Prop := (skipBlank following).head? ≠ some .dot

theorem key?_keyToken (key : String) : key? (keyToken key) = some key := by
  rcases keyToken_cases key with same | same <;> rw [same]
  · exact congrArg some String.ofList_toList
  · rfl

theorem keyPath_last (key : String) {following : List Token} (ends : EndsKey following) :
    keyPath (keyToken key :: following) = some ([key], skipBlank following) := by
  have noBlank : ∀ text, keyToken key ≠ .blank text := by
    intro text same
    have starts := keyToken_starts key
    rw [same] at starts
    cases starts
  rw [keyPath, key?_keyToken, Option.bind_eq_bind, Option.bind_some]
  -- a dot behind the key, or behind a blank, is what `ends` rules out
  · split
    next => exact absurd rfl ends
    next => exact absurd rfl ends
    next => rfl
  · exact noBlank

theorem keyPath_dot (key : String) (more : List Token) :
    keyPath (keyToken key :: .dot :: more) = (do
      let (path, left) ← keyPath more
      some (key :: path, left)) := by
  rcases keyToken_cases key with same | same <;> rw [same, keyPath] <;> simp [key?]

theorem keyPath_pathTokens {path : List String} (nonempty : path ≠ []) {following : List Token}
    (ends : EndsKey following) :
    keyPath (pathTokens path ++ following) = some (path, skipBlank following) := by
  fun_induction pathTokens path with
  | case1 => exact absurd rfl nonempty
  | case2 key => exact keyPath_last key ends
  | case3 key path more ih =>
    rw [List.cons_append, List.cons_append, keyPath_dot, ih more]
    rfl

/-- A dotted key as it is written. -/
def pathText (path : List String) : String :=
  ".".intercalate (path.map fun key => String.ofList (keyText key))

/-- A key that needs no quotes is written as it is. -/
theorem pathText_bare {key : String}
    (bare : (!key.toList.isEmpty && key.toList.all isBare) = true) : pathText [key] = key := by
  rw [pathText, List.map_singleton, String.intercalate_singleton, keyText, if_pos bare,
    String.ofList_toList]

theorem pathText_toList (path : List String) :
    (pathText path).toList = (pathTokens path).flatMap Token.text := by
  unfold pathText
  fun_induction pathTokens path with
  | case1 => rfl
  | case2 key =>
    rw [List.map_singleton, String.intercalate_singleton, String.toList_ofList,
      List.flatMap_singleton, keyToken_text]
  | case3 key path more ih =>
    obtain ⟨next, rest, rfl⟩ := List.exists_cons_of_ne_nil more
    rw [List.map_cons] at ih ⊢
    rw [List.map_cons, String.intercalate_cons_cons, String.toList_append, String.toList_append, ih,
      String.toList_ofList, List.flatMap_cons, List.flatMap_cons, keyToken_text]
    simp [Token.text]

end WordFields.Toml
