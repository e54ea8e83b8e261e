import WordFields.Toml.Token

/-!
# Cutting a text into tokens

A text is cut one character at a time: the lexer is in a `Mode`, and a character either moves it on,
perhaps completing tokens, or cannot stand there. Cutting two texts one after the other is therefore
cutting their concatenation. A byte order mark at the start and the carriage return of a CRLF are
dropped before.
-/

set_option autoImplicit false

namespace WordFields.Toml

inductive Quote where
  | literal | basic
  deriving DecidableEq, Repr

def Quote.mark : Quote → Char
  | .literal => '\''
  | .basic => '"'

/-- Where the lexer stands. Texts read so far are kept in reverse. -/
inductive Mode where
  | between
  | blank (text : List Char)
  | word (text : List Char)
  | comment
  /-- One mark is read. -/
  | opened (quote : Quote)
  /-- Two marks are read: an empty string, or the start of a block. -/
  | openedTwice (quote : Quote)
  /-- Three marks are read; a newline here is not part of the text. -/
  | blockStart (quote : Quote)
  | content (quote : Quote) (block : Bool) (text : List Char)
  /-- In a block, `count` marks in a row are read, one or two. -/
  | marks (quote : Quote) (text : List Char) (count : Nat)
  /-- The three closing marks are read and `extra` more, which belong to the text. -/
  | closing (quote : Quote) (text : List Char) (extra : Nat)
  | escape (block : Bool) (text : List Char)
  /-- In the digits of a code point, `left` of them still to come. -/
  | code (block : Bool) (text : List Char) (left value : Nat)
  /-- Behind a backslash and blanks in a block: the line has to end. -/
  | lineEnd (text : List Char)
  /-- Behind a backslash at the end of a line: blanks and newlines are dropped. -/
  | joined (text : List Char)
  deriving DecidableEq, Repr

/-- The mode and the tokens completed so far, the last one first. -/
structure Lexer where
  mode : Mode
  tokens : List Token
  deriving DecidableEq, Repr

namespace Lexer

/-- A character at the start of a token. -/
def start (tokens : List Token) (c : Char) : Option Lexer :=
  if isBlank c then some ⟨.blank [c], tokens⟩
  else if isBare c then some ⟨.word [c], tokens⟩
  else match c with
    | '\n' => some ⟨.between, .newline :: tokens⟩
    | '#' => some ⟨.comment, tokens⟩
    | '=' => some ⟨.between, .equals :: tokens⟩
    | '.' => some ⟨.between, .dot :: tokens⟩
    | ',' => some ⟨.between, .comma :: tokens⟩
    | ':' => some ⟨.between, .colon :: tokens⟩
    | '+' => some ⟨.between, .plus :: tokens⟩
    | '\x7b' => some ⟨.between, .openBrace :: tokens⟩
    | '\x7d' => some ⟨.between, .closeBrace :: tokens⟩
    | '[' => some ⟨.between, .openBracket :: tokens⟩
    | ']' => some ⟨.between, .closeBracket :: tokens⟩
    | '"' => some ⟨.opened .basic, tokens⟩
    | '\'' => some ⟨.opened .literal, tokens⟩
    | _ => none

def quotedToken (text : List Char) (block : Bool) : Token :=
  .quoted (String.ofList text.reverse) block

/-- A character of a string's text. -/
def inside (quote : Quote) (block : Bool) (text : List Char) (tokens : List Token) (c : Char) :
    Option Lexer :=
  if c = quote.mark then
    if block then some ⟨.marks quote text 1, tokens⟩
    else some ⟨.between, quotedToken text false :: tokens⟩
  else if c = '\n' then
    if block then some ⟨.content quote block (c :: text), tokens⟩ else none
  else if c = '\\' ∧ quote = .basic then some ⟨.escape block text, tokens⟩
  else if isTextChar c then some ⟨.content quote block (c :: text), tokens⟩
  else none

/-- The character behind a backslash. -/
def escaped (block : Bool) (text : List Char) (tokens : List Token) (c : Char) : Option Lexer :=
  let short (c : Char) : Option Lexer := some ⟨.content .basic block (c :: text), tokens⟩
  match c with
  | '"' => short '"'
  | '\\' => short '\\'
  | 'b' => short '\x08'
  | 'f' => short '\x0c'
  | 'n' => short '\n'
  | 'r' => short '\r'
  | 't' => short '\t'
  | 'u' => some ⟨.code block text 4 0, tokens⟩
  | 'U' => some ⟨.code block text 8 0, tokens⟩
  | '\n' => if block then some ⟨.joined text, tokens⟩ else none
  | ' ' => if block then some ⟨.lineEnd text, tokens⟩ else none
  | '\t' => if block then some ⟨.lineEnd text, tokens⟩ else none
  | _ => none

def hexDigit? (c : Char) : Option Nat :=
  if '0' ≤ c && c ≤ '9' then some (c.toNat - '0'.toNat)
  else if 'a' ≤ c && c ≤ 'f' then some (c.toNat - 'a'.toNat + 10)
  else if 'A' ≤ c && c ≤ 'F' then some (c.toNat - 'A'.toNat + 10)
  else none

/-- The character with this code point, if there is one. -/
def scalar? (n : Nat) : Option Char :=
  if n.isValidChar then some (Char.ofNat n) else none

def step (r : Lexer) (c : Char) : Option Lexer :=
  let tokens := r.tokens
  match r.mode with
  | .between => start tokens c
  | .blank text =>
    if isBlank c then some ⟨.blank (c :: text), tokens⟩
    else start (.blank text.reverse :: tokens) c
  | .word text =>
    if isBare c then some ⟨.word (c :: text), tokens⟩
    else start (.word text.reverse :: tokens) c
  | .comment =>
    if c = '\n' then some ⟨.between, .newline :: tokens⟩
    else if isCommentChar c then some r
    else none
  | .opened quote =>
    if c = quote.mark then some ⟨.openedTwice quote, tokens⟩
    else inside quote false [] tokens c
  | .openedTwice quote =>
    if c = quote.mark then some ⟨.blockStart quote, tokens⟩
    else start (quotedToken [] false :: tokens) c
  | .blockStart quote =>
    if c = '\n' then some ⟨.content quote true [], tokens⟩
    else inside quote true [] tokens c
  | .content quote block text => inside quote block text tokens c
  | .marks quote text count =>
    if c = quote.mark then
      if count = 2 then some ⟨.closing quote text 0, tokens⟩
      else some ⟨.marks quote text (count + 1), tokens⟩
    else inside quote true (List.replicate count quote.mark ++ text) tokens c
  | .closing quote text extra =>
    if c = quote.mark ∧ extra < 2 then some ⟨.closing quote (c :: text) (extra + 1), tokens⟩
    else start (quotedToken text true :: tokens) c
  | .escape block text => escaped block text tokens c
  | .code block text left value => do
    let digit ← hexDigit? c
    let value := 16 * value + digit
    if left = 1 then
      let char ← scalar? value
      some ⟨.content .basic block (char :: text), tokens⟩
    else some ⟨.code block text (left - 1) value, tokens⟩
  | .lineEnd text =>
    if isBlank c then some r
    else if c = '\n' then some ⟨.joined text, tokens⟩
    else none
  | .joined text =>
    if isBlank c || c == '\n' then some r else inside .basic true text tokens c

/-- The tokens when the text ends here. -/
def finish (r : Lexer) : Option (List Token) :=
  match r.mode with
  | .between => some r.tokens.reverse
  | .comment => some r.tokens.reverse
  | .blank text => some (.blank text.reverse :: r.tokens).reverse
  | .word text => some (.word text.reverse :: r.tokens).reverse
  | .openedTwice _ => some (quotedToken [] false :: r.tokens).reverse
  | .closing _ text _ => some (quotedToken text true :: r.tokens).reverse
  | _ => none

end Lexer

/-- Every CRLF replaced by a newline. -/
def foldLineEnds : List Char → List Char
  | '\r' :: '\n' :: rest => '\n' :: foldLineEnds rest
  | c :: rest => c :: foldLineEnds rest
  | [] => []

/-- The text without a byte order mark at its start. -/
def dropMark : List Char → List Char
  | '\uFEFF' :: rest => rest
  | text => text

def tokens? (text : List Char) : Option (List Token) := do
  let r ← (foldLineEnds (dropMark text)).foldlM Lexer.step ⟨.between, []⟩
  r.finish

end WordFields.Toml
