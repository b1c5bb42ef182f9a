import ClassRules.Cursor
import ClassRules.ParseError
import ClassRules.Token

/-!
# Lexing

The cut of a text into tokens. Nothing is left out: white space and comments are tokens as well.

## What this module delivers

- `Lexeme`: the kind of the piece that starts a text, and how far it reaches.
- `Lexeme.ofChars`: the rule that finds it, from the first character and those behind it.
- `tokenize`: all tokens of a text, the last of which marks its end, and the strings and comments
  that are never closed.
-/

set_option autoImplicit false

namespace ClassRules

open Text

namespace Lexeme

/-- The characters of an at-rule's name. -/
def isNameChar (c : Char) : Bool :=
  isAlphanumeric c || c == '-' || c == '_'

/-- The kind of a character that is a token by itself. -/
def punctuation? : Char → Option Token.Kind
  | '{' => some .openBrace
  | '}' => some .closeBrace
  | '(' => some .openParen
  | ')' => some .closeParen
  | '[' => some .openBracket
  | ']' => some .closeBracket
  | ';' => some .semicolon
  | ':' => some .colon
  | ',' => some .comma
  | _ => none

/-- The two marks that may stand around a string. -/
def isQuote (c : Char) : Bool :=
  c == '"' || c == '\''

/-- Whether a word ends before `c` when `rest` follows it. -/
def endsWord (c : Char) (rest : List Char) : Bool :=
  (punctuation? c).isSome || isQuote c || isBlank c || (c == '/' && rest.head? == some '*')

/-- The number of characters of the word at the start of a text. A backslash takes the next
character with it. -/
def wordLength : List Char → Nat
  | [] => 0
  | ['\\'] => 1
  | '\\' :: _ :: rest => wordLength rest + 2
  | c :: rest => if endsWord c rest then 0 else wordLength rest + 1

/-- The number of characters up to and with the end of a comment whose opening has been read, and
whether the end was found. -/
def commentLength : List Char → Nat × Bool
  | [] => (0, false)
  | '*' :: '/' :: _ => (2, true)
  | _ :: rest => let (n, closed) := commentLength rest; (n + 1, closed)

/-- The number of characters up to and with the closing `quote` of a string whose opening has been
read, and whether that mark was found. A string ends before a line feed, unless a backslash takes
the line feed with it. -/
def stringLength (quote : Char) : List Char → Nat × Bool
  | [] => (0, false)
  | c :: rest =>
    if c = quote then (1, true)
    -- The line feed is left for the next token.
    else if c = '\n' then (0, false)
    else if c = '\\' then
      match rest with
      | [] => (1, false)
      | _ :: rest => let (n, closed) := stringLength quote rest; (n + 2, closed)
    else let (n, closed) := stringLength quote rest; (n + 1, closed)

end Lexeme

/-- The piece at the start of a text: its kind, the number of its characters behind the first one,
and what is wrong with it. -/
structure Lexeme where
  kind : Token.Kind
  more : Nat
  fault : Option ParseError.Cause := none

namespace Lexeme

/-- The piece that starts with the character `c` when `rest` follows. -/
def ofChars (c : Char) (rest : List Char) : Lexeme :=
  -- A slash alone starts a word, so a comment has to be told apart first.
  if c = '/' ∧ rest.head? = some '*' then
    let (n, closed) := commentLength (rest.drop 1)
    ⟨.comment, n + 1, if closed then none else some .unterminatedComment⟩
  else match punctuation? c with
  | some kind => ⟨kind, 0, none⟩
  | none =>
    if isQuote c then
      let (n, closed) := stringLength c rest
      ⟨.string, n, if closed then none else some .unterminatedString⟩
    else if c = '@' ∧ rest.head?.any isNameChar then
      ⟨.atKeyword, (rest.takeWhile isNameChar).length, none⟩
    else if isBlank c then
      ⟨.blank, (rest.takeWhile isBlank).length, none⟩
    else
      ⟨.word, wordLength (c :: rest) - 1, none⟩

end Lexeme

/-- The tokens of a text and the faults met while cutting it. -/
structure Lexed where
  tokens : List Token
  errors : List ParseError
  deriving DecidableEq, Repr

/-- The tokens of what is left at a cursor. -/
def tokensFrom (cursor : Cursor) : Lexed :=
  match h : cursor.rest with
  | [] => ⟨[.stopAt cursor.place], []⟩
  | c :: rest =>
    let lexeme := Lexeme.ofChars c rest
    let next := cursor.forward (lexeme.more + 1)
    let span : Span := ⟨cursor.place, next.place⟩
    let token : Token := ⟨lexeme.kind, span, String.ofList (c :: rest.take lexeme.more)⟩
    let later := tokensFrom next
    ⟨token :: later.tokens, (lexeme.fault.map (⟨·, span⟩)).toList ++ later.errors⟩
termination_by cursor.rest.length
decreasing_by exact Cursor.forward_rest_lt (Nat.succ_pos _) (by simp [h])

/-- The tokens of a text. The last one marks its end. -/
def tokenize (text : String) : Lexed :=
  tokensFrom (.ofText text)

end ClassRules
