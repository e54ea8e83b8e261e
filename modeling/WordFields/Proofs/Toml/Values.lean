import WordFields.Proofs.Toml.Decimals
import WordFields.Proofs.Toml.Keys
import WordFields.Proofs.Toml.Steps

/-!
# Values are read back from their tokens

The items of an array and the members of an inline table are written with a comma and a space
between them. What is read of a value does not depend on what follows, as long as that does not
continue a number, so values can be put into lists and lists into values. The readers of values
carry a bound; twice the number of tokens is enough for every value.
-/

set_option autoImplicit false

namespace WordFields.Toml

/-- The tokens of `path = value`. -/
def pairTokens (path : List String) (value : List Token) : List Token :=
  pathTokens path ++ .blank [' '] :: .equals :: .blank [' '] :: value

/-- Items with a comma and a space between them, up to the closing mark. -/
def listTokens (close : Token) : List (List Token) → List Token
  | [] => [close]
  | [item] => item ++ [close]
  | item :: rest => item ++ .comma :: .blank [' '] :: listTokens close rest

theorem key_space_apart (key : String) : Apart [keyToken key, .blank [' ']] := by
  rcases keyToken_cases key with same | same <;> rw [same] <;>
    exact List.isChain_cons_cons.2 ⟨rfl, .singleton _⟩

theorem pairTokens_apart {path : List String} (nonempty : path ≠ []) {value : List Token}
    (phrase : Phrase value) : Apart (pairTokens path value) := by
  unfold pairTokens
  fun_induction pathTokens path with
  | case1 => exact absurd rfl nonempty
  | case2 key =>
    exact apart_append_mark (l := [keyToken key, .blank [' ']]) rfl (key_space_apart key)
      phrase.behind_space
  | case3 key path more ih =>
    exact apart_append_mark (l := [keyToken key]) rfl (.singleton _) (ih more)

theorem Phrase.pair {path : List String} (nonempty : path ≠ []) {value : List Token}
    (phrase : Phrase value) : Phrase (pairTokens path value) := by
  have key := pathTokens_phrase nonempty
  refine ⟨?_, pairTokens_apart nonempty phrase, ?_⟩
  · intro t mem
    simp only [pairTokens, List.mem_append, List.mem_cons] at mem
    rcases mem with inPath | rfl | rfl | rfl | inValue
    · exact key.plain t inPath
    · exact space_plain
    · trivial
    · exact space_plain
    · exact phrase.plain t inValue
  · obtain ⟨first, rest, isFirst, starts⟩ := key.starts
    exact ⟨first, _, by rw [pairTokens, isFirst, List.cons_append], starts⟩

/-- A list keeps apart, and so it does behind a space. -/
theorem listTokens_apart {close : Token} (isMark : close.isMark = true) {items : List (List Token)}
    (phrases : ∀ item ∈ items, Phrase item) :
    Apart (listTokens close items) ∧ Apart (.blank [' '] :: listTokens close items) := by
  fun_induction listTokens close items with
  | case1 =>
    exact ⟨.singleton _, apart_append_mark (l := [.blank [' ']]) isMark (.singleton _) .nil⟩
  | case2 item =>
    have phrase := phrases item List.mem_cons_self
    exact ⟨apart_append_mark isMark phrase.apart .nil,
      apart_append_mark isMark phrase.behind_space .nil⟩
  | case3 item rest _ ih =>
    have phrase := phrases item List.mem_cons_self
    have others := ih fun other mem => phrases other (List.mem_cons_of_mem _ mem)
    exact ⟨apart_append_mark rfl phrase.apart others.2,
      apart_append_mark rfl phrase.behind_space others.2⟩

theorem listTokens_plain {close : Token} (isMark : close.isMark = true) {items : List (List Token)}
    (phrases : ∀ item ∈ items, Phrase item) : ∀ t ∈ listTokens close items, t.Plain := by
  have plainClose := mark_plain isMark
  fun_induction listTokens close items with
  | case1 => simpa using plainClose
  | case2 item =>
    refine List.forall_mem_append.2 ⟨(phrases item List.mem_cons_self).plain, ?_⟩
    simpa using plainClose
  | case3 item rest _ ih =>
    have others := ih fun other mem => phrases other (List.mem_cons_of_mem _ mem)
    refine List.forall_mem_append.2 ⟨(phrases item List.mem_cons_self).plain, ?_⟩
    exact List.forall_mem_cons.2 ⟨trivial, List.forall_mem_cons.2 ⟨space_plain, others⟩⟩

theorem Phrase.list {opening close : Token} (starts : opening.starts = true)
    (isMark : opening.isMark = true) (closes : close.isMark = true) {items : List (List Token)}
    (phrases : ∀ item ∈ items, Phrase item) : Phrase (opening :: listTokens close items) where
  plain := List.forall_mem_cons.2 ⟨mark_plain isMark, listTokens_plain closes phrases⟩
  apart := apart_append_mark (l := []) isMark .nil (listTokens_apart closes phrases).1
  starts := ⟨_, _, rfl, starts⟩

/-- What can stand behind the opening mark can stand behind a blank too, unless it is the end. -/
theorem Phrase.items (close : Token) (closes : close.isMark = true) {first : List Token}
    {items : List (List Token)} (phrases : ∀ item ∈ first :: items, Phrase item) :
    Phrase (listTokens close (first :: items)) where
  plain := listTokens_plain closes phrases
  apart := (listTokens_apart closes phrases).1
  starts := by
    obtain ⟨t, rest, rfl, starts⟩ := (phrases first List.mem_cons_self).starts
    cases items with
    | nil => exact ⟨t, _, rfl, starts⟩
    | cons => exact ⟨t, _, rfl, starts⟩

/-- The tokens of a value, which are read as `node` whatever follows them. -/
structure ValueTokens (ts : List Token) (node : Node) : Prop extends Phrase ts where
  reads : ∀ bound following, 2 * ts.length ≤ bound → EndsNumber following →
    valueWithin bound (ts ++ following) = some (node, following)

theorem Phrase.word {text : List Char} (plain : (Token.word text).Plain) :
    Phrase [.word text] :=
  ⟨by simpa using plain, .singleton _, _, _, rfl, rfl⟩

theorem ValueTokens.word {text : List Char} {node : Node} (plain : (Token.word text).Plain)
    (reads : ∀ following, EndsNumber following →
      scalar (.word text) following = some (node, 0)) : ValueTokens [.word text] node where
  toPhrase := .word plain
  reads := by
    intro bound following enough ends
    obtain ⟨left, rfl⟩ := Nat.exists_eq_add_one_of_ne_zero (Nat.ne_zero_of_lt enough)
    simp [valueWithin, reads following ends]

theorem ValueTokens.flag (b : Bool) : ValueTokens [.word (toString b).toList] (.boolean b) := by
  cases b with
  | false => exact .word (plain_of_bare (by decide)) fun _ _ => rfl
  | true => exact .word (plain_of_bare (by decide)) fun _ _ => rfl

/-- A string between quotes is read, whatever its characters. -/
theorem ValueTokens.quoted (text : String) : ValueTokens [.quoted text false] (.text text) where
  toPhrase := ⟨List.forall_mem_singleton.2 rfl, .singleton _, _, _, rfl, rfl⟩
  reads := by
    intro bound following enough _
    obtain ⟨left, rfl⟩ := Nat.exists_eq_add_one_of_ne_zero (Nat.ne_zero_of_lt enough)
    rfl

/-- An item of an array is there, and it is not the end of the array. -/
theorem ValueTokens.isItem {ts : List Token} {node : Node} (value : ValueTokens ts node)
    {bound : Nat} (enough : 2 * ts.length ≤ bound) {following : List Token}
    (ends : EndsNumber following) :
    (∀ left, skipLines (ts ++ following) ≠ .closeBracket :: left) ∧
      valueWithin bound (skipLines (ts ++ following)) = some (node, following) := by
  rw [value.skipLines_append]
  exact ⟨value.ne_close rfl following, value.reads bound following enough ends⟩

theorem itemsWithin_space (bound : Nat) (ts : List Token) :
    itemsWithin bound (.blank [' '] :: ts) = itemsWithin bound ts := by
  cases bound with
  | zero => rfl
  | succ bound => rw [itemsWithin, itemsWithin, skipLines]

/-- A member of an inline table is there: its key of one part and its value. -/
theorem ValueTokens.isMember (key : String) {ts : List Token} {node : Node}
    (value : ValueTokens ts node) {bound : Nat} (enough : 2 * ts.length ≤ bound)
    {following : List Token} (ends : EndsNumber following) :
    keyPath (pairTokens [key] ts ++ following) =
        some ([key], .equals :: .blank [' '] :: (ts ++ following)) ∧
      valueWithin bound (skipBlank (.blank [' '] :: (ts ++ following))) =
        some (node, following) := by
  refine ⟨?_, value.reads bound following enough ends⟩
  rw [pairTokens, List.append_assoc]
  exact keyPath_pathTokens (List.cons_ne_nil key []) fun same => nomatch same

theorem membersWithin_space (bound : Nat) (entries : List (String × Node)) (ts : List Token) :
    membersWithin bound entries (.blank [' '] :: ts) = membersWithin bound entries ts := by
  cases bound with
  | zero => rfl
  | succ bound => rw [membersWithin, membersWithin, keyPath]

section Lists

variable {ι : Type} {items : List ι} {tokens : ι → List Token} {node : ι → Node}

theorem itemsWithin_list (values : ∀ i ∈ items, ValueTokens (tokens i) (node i)) {bound : Nat}
    (enough : 2 * (listTokens .closeBracket (items.map tokens)).length < bound)
    (following : List Token) :
    itemsWithin bound (listTokens .closeBracket (items.map tokens) ++ following) =
      some (items.map node, following) := by
  -- every item takes one step of the bound and leaves twice the tokens of the others
  induction items generalizing bound with
  | nil =>
    obtain ⟨left, rfl⟩ := Nat.exists_eq_add_one_of_ne_zero (Nat.ne_zero_of_lt enough)
    rfl
  | cons item rest ih =>
    obtain ⟨left, rfl⟩ := Nat.exists_eq_add_one_of_ne_zero (Nat.ne_zero_of_lt enough)
    have value := values item List.mem_cons_self
    cases rest with
    | nil =>
      simp only [List.map_cons, List.map_nil, listTokens, List.length_append, List.length_cons]
        at enough ⊢
      have ends : EndsNumber (.closeBracket :: following) := ⟨by simp, by simp⟩
      have here : 2 * (tokens item).length ≤ left := by omega
      obtain ⟨opened, isItem⟩ := value.isItem here ends
      rw [List.append_assoc, List.singleton_append]
      exact itemsWithin_eq_some_iff.2 (.last opened isItem rfl)
    | cons next rest =>
      have written : listTokens .closeBracket ((item :: next :: rest).map tokens) = tokens item ++
          .comma :: .blank [' '] :: listTokens .closeBracket ((next :: rest).map tokens) := rfl
      rw [written, List.length_append, List.length_cons, List.length_cons] at enough
      have ends : EndsNumber (.comma :: .blank [' '] ::
          (listTokens .closeBracket ((next :: rest).map tokens) ++ following)) :=
        ⟨by simp, by simp⟩
      have here : 2 * (tokens item).length ≤ left := by omega
      obtain ⟨opened, isItem⟩ := value.isItem here ends
      have later : 2 * (listTokens .closeBracket ((next :: rest).map tokens)).length < left := by
        omega
      have others := ih (fun i mem => values i (List.mem_cons_of_mem _ mem)) later
      rw [← itemsWithin_space] at others
      rw [written, List.append_assoc, List.cons_append, List.cons_append]
      exact itemsWithin_eq_some_iff.2 (.more opened isItem rfl others)

theorem ValueTokens.array (values : ∀ i ∈ items, ValueTokens (tokens i) (node i)) :
    ValueTokens (.openBracket :: listTokens .closeBracket (items.map tokens))
      (.array (items.map node)) where
  toPhrase := by
    refine .list rfl rfl rfl fun ts mem => ?_
    obtain ⟨i, inItems, rfl⟩ := List.mem_map.1 mem
    exact (values i inItems).toPhrase
  reads := by
    intro bound following enough _
    obtain ⟨left, rfl⟩ := Nat.exists_eq_add_one_of_ne_zero (Nat.ne_zero_of_lt enough)
    rw [List.length_cons] at enough
    exact valueWithin_eq_some_iff.2 (.array (itemsWithin_list values (by omega) following))

/-- The entries of an inline table, each with a key of one part; keys may repeat. -/
def memberTokens (key : ι → String) (tokens : ι → List Token) (i : ι) : List Token :=
  pairTokens [key i] (tokens i)

/-- The members of an inline table are added in turn to the entries that it has so far. -/
theorem membersWithin_list {key : ι → String} {first : ι} {items : List ι}
    (values : ∀ i ∈ first :: items, ValueTokens (tokens i) (node i)) {bound : Nat}
    (entries : List (String × Node))
    (enough : 2 * (listTokens .closeBrace ((first :: items).map (memberTokens key tokens))).length ≤
      bound)
    (following : List Token) :
    membersWithin bound entries
        (listTokens .closeBrace ((first :: items).map (memberTokens key tokens)) ++ following) =
      some (entries ++ (first :: items).map fun i => (key i, node i), following) := by
  have value := values first List.mem_cons_self
  induction items generalizing bound first entries with
  | nil =>
    simp only [List.map_cons, List.map_nil, listTokens, List.length_append, memberTokens,
      pairTokens, List.length_cons] at enough
    obtain ⟨left, rfl⟩ := Nat.exists_eq_add_one_of_ne_zero (n := bound) (by omega)
    simp only [List.map_cons, List.map_nil, listTokens]
    have ends : EndsNumber (.closeBrace :: following) := ⟨by simp, by simp⟩
    have here : 2 * (tokens first).length ≤ left := by omega
    obtain ⟨isPath, isValue⟩ := value.isMember (key first) here ends
    rw [List.append_assoc, List.singleton_append, memberTokens]
    exact membersWithin_eq_some_iff.2 (.last isPath isValue rfl rfl)
  | cons next rest ih =>
    have others := fun i mem => values i (List.mem_cons_of_mem first mem)
    have written : listTokens .closeBrace ((first :: next :: rest).map (memberTokens key tokens)) =
        memberTokens key tokens first ++ .comma :: .blank [' '] ::
          listTokens .closeBrace ((next :: rest).map (memberTokens key tokens)) := rfl
    rw [written] at enough ⊢
    simp only [memberTokens, pairTokens, List.length_append, List.length_cons] at enough
    obtain ⟨left, rfl⟩ := Nat.exists_eq_add_one_of_ne_zero (n := bound) (by omega)
    have ends : EndsNumber (.comma :: .blank [' '] ::
        (listTokens .closeBrace ((next :: rest).map (memberTokens key tokens)) ++ following)) :=
      ⟨by simp, by simp⟩
    have here : 2 * (tokens first).length ≤ left := by omega
    obtain ⟨isPath, isValue⟩ := value.isMember (key first) here ends
    have later :
        2 * (listTokens .closeBrace ((next :: rest).map (memberTokens key tokens))).length ≤
          left := by
      omega
    have members := ih others (entries ++ [(key first, node first)]) later
      (others next List.mem_cons_self)
    rw [← membersWithin_space, List.append_assoc] at members
    rw [List.append_assoc, List.cons_append, List.cons_append, memberTokens]
    exact membersWithin_eq_some_iff.2 (.more isPath isValue rfl rfl members)

theorem ValueTokens.table {key : ι → String}
    (values : ∀ i ∈ items, ValueTokens (tokens i) (node i)) :
    ValueTokens (.openBrace :: listTokens .closeBrace (items.map (memberTokens key tokens)))
      (.table .closed (items.map fun i => (key i, node i))) := by
  have phrases : ∀ ts ∈ items.map (memberTokens key tokens), Phrase ts := by
    intro ts mem
    obtain ⟨i, inItems, rfl⟩ := List.mem_map.1 mem
    exact (values i inItems).toPhrase.pair (by simp)
  refine ⟨.list rfl rfl rfl phrases, fun bound following enough _ => ?_⟩
  obtain ⟨left, rfl⟩ := Nat.exists_eq_add_one_of_ne_zero (Nat.ne_zero_of_lt enough)
  rw [List.length_cons] at enough
  cases items with
  | nil => rfl
  | cons first rest =>
    have members := Phrase.items .closeBrace rfl phrases
    have skipped := members.skipBlank_append following
    refine valueWithin_eq_some_iff.2 (.table ?_ ?_)
    · exact skipped ▸ members.ne_close rfl following
    · exact skipped ▸ membersWithin_list values [] (by omega) following

end Lists

/-- The text of a pair, where it is a member of a table; a line has a newline behind it. -/
def pairText (path : List String) (value : String) : String := pathText path ++ " = " ++ value

theorem pairText_toList {path : List String} {value : String} {ts : List Token}
    (written : value.toList = ts.flatMap Token.text) :
    (pairText path value).toList = (pairTokens path ts).flatMap Token.text := by
  simp [pairText, pairTokens, pathText_toList, written, Token.text]

/-- A string between quotes, with the characters escaped that cannot stand there. -/
def quotedText (text : String) : String :=
  "\"" ++ String.ofList (text.toList.flatMap escapedChar) ++ "\""

def itemsText (items : List String) : String := ", ".intercalate items

def arrayText (items : List String) : String := "[" ++ itemsText items ++ "]"

def tableText (members : List String) : String := "\x7b" ++ itemsText members ++ "\x7d"

theorem itemsText_toList {ι : Type} {items : List ι} {text : ι → String} {tokens : ι → List Token}
    (written : ∀ i ∈ items, (text i).toList = (tokens i).flatMap Token.text) (close : Token) :
    (itemsText (items.map text)).toList ++ close.text =
      (listTokens close (items.map tokens)).flatMap Token.text := by
  unfold itemsText
  induction items with
  | nil => simp [listTokens]
  | cons item rest ih =>
    have others := ih fun i mem => written i (List.mem_cons_of_mem _ mem)
    have first := written item List.mem_cons_self
    cases rest with
    | nil => simp [listTokens, first]
    | cons next rest =>
      rw [List.map_cons] at others
      rw [List.map_cons, List.map_cons, String.intercalate_cons_cons, String.toList_append,
        String.toList_append, List.append_assoc, others, first]
      simp [listTokens, Token.text]

/-- The text is one value, read as `node`. -/
def ValueText (text : String) (node : Node) : Prop :=
  ∃ ts, ValueTokens ts node ∧ text.toList = ts.flatMap Token.text

namespace ValueText

theorem word {text : String} {node : Node} (value : ValueTokens [.word text.toList] node) :
    ValueText text node :=
  ⟨_, value, by simp [Token.text]⟩

theorem flag (b : Bool) : ValueText (toString b) (.boolean b) := .word (.flag b)

theorem quoted (text : String) : ValueText (quotedText text) (.text text) :=
  ⟨_, .quoted text, by simp [quotedText, Token.text]⟩

section Lists

variable {ι : Type} {items : List ι} {text : ι → String} {node : ι → Node}

theorem array (values : ∀ i ∈ items, ValueText (text i) (node i)) :
    ValueText (arrayText (items.map text)) (.array (items.map node)) := by
  choose! tokens isValue written using values
  refine ⟨_, .array isValue, ?_⟩
  rw [List.flatMap_cons, ← itemsText_toList written]
  simp [arrayText, Token.text]

/-- An inline table; each of its keys has one part. -/
theorem table {key : ι → String} (values : ∀ i ∈ items, ValueText (text i) (node i)) :
    ValueText (tableText (items.map fun i => pairText [key i] (text i)))
      (.table .closed (items.map fun i => (key i, node i))) := by
  choose! tokens isValue written using values
  have members : ∀ i ∈ items, (pairText [key i] (text i)).toList =
      (memberTokens key tokens i).flatMap Token.text := fun i mem => pairText_toList (written i mem)
  refine ⟨_, .table isValue, ?_⟩
  rw [List.flatMap_cons, ← itemsText_toList members]
  simp [tableText, Token.text]

end Lists

end ValueText

end WordFields.Toml
