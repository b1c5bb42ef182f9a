import ClassRules.ParseError
import ClassRules.Text.Blank
import ClassRules.Text.Slice
import ClassRules.Token.Lexer
import ClassRules.Tree

/-!
# Parsing

The trees that a list of tokens stands for. The grammar is

    nodes       = (comment | at-rule | rule | declaration | ";")*
    at-rule     = at-keyword params (";" | block)
    rule        = selector block
    declaration = property ":" value ("!important")? ";"?
    block       = "{" nodes "}"

and a text that departs from it still gives trees, along with the errors met.

## What this module delivers

- `Parser.State`: the open blocks, the nodes read, the errors, and where the last token ended.
- `Parser.statementLength`: how many tokens belong to a statement.
- `Parser.step`: what one token, with the statement that it may start, does to the state.
- `parseTokens?`: all steps. There is no result if the tokens do not lie on the text.
- `parse`: the trees and errors of a text.
-/

set_option autoImplicit false

namespace ClassRules

open Text

/-- The trees of a text and the errors met while reading it. -/
structure Parsed where
  nodes : List Tree
  errors : List ParseError

namespace Parser

/-- What the tokens are read against. -/
structure Context where
  source : List Char
  input : InputId

/-- A node whose block is open: what it is, where it starts, the brace that opened the block, and
the nodes before it. -/
structure Frame where
  content : Content
  start : Position
  brace : Span
  before : List Tree

/-- How far reading has come. -/
structure State where
  /-- The open blocks, the innermost first. -/
  frames : List Frame := []
  /-- The nodes of the innermost open block. -/
  nodes : List Tree := []
  errors : List ParseError := []
  /-- The end of the last token read. -/
  last : Position := .start

namespace State

/-- Moves the end of what was read behind the given tokens. -/
def readTo (s : State) (tokens : List Token) : State :=
  match tokens.getLast? with
  | some t => { s with last := t.span.stop }
  | none => s

/-- Adds a node that has been read to its end. -/
def add (s : State) (input : InputId) (content : Content) (start : Position)
    (children : List Tree := []) : State :=
  { s with nodes := s.nodes ++ [.node content (some ⟨input, ⟨start, s.last⟩⟩) children] }

/-- Notes an error. -/
def report (s : State) (cause : ParseError.Cause) (span : Span) : State :=
  { s with errors := s.errors ++ [⟨cause, span⟩] }

/-- Opens the block of a node. -/
def openBlock (s : State) (content : Content) (start : Position) (brace : Token) : State where
  frames := ⟨content, start, brace.span, s.nodes⟩ :: s.frames
  nodes := []
  errors := s.errors
  last := brace.span.stop

/-- Closes the block of the node in `frame`, under which the nodes read last stand. -/
def closeFrame (s : State) (input : InputId) (frame : Frame) (frames : List Frame) : State :=
  { s with frames := frames, nodes := frame.before }.add input frame.content frame.start s.nodes

/-- Reads a closing brace. Outside all blocks it is out of place. -/
def closeBlock (s : State) (input : InputId) (brace : Token) : State :=
  let s := s.readTo [brace]
  match s.frames with
  -- Only now are the last child and the end of the node known.
  | frame :: frames => s.closeFrame input frame frames
  | [] => s.report (.unexpectedToken brace.text "rule or declaration") brace.span

/-- Closes the given blocks, all of which the end of the text leaves open. -/
def closeAll (s : State) (input : InputId) : List Frame → State
  | [] => { s with frames := [] }
  | frame :: frames =>
    ((s.report .unclosedBlock frame.brace).closeFrame input frame frames).closeAll input frames

end State

/-- Whether a statement ends before a token, `depth` groups being open. A brace ends it in any
group, and a semicolon outside all of them. -/
def endsStatement (depth : Nat) : Token.Kind → Bool
  | .openBrace | .closeBrace | .stop => true
  | .semicolon => depth == 0
  | _ => false

/-- The number of open groups behind a token. A closing mark without an opening one does not
count. -/
def depthAfter (depth : Nat) (kind : Token.Kind) : Nat :=
  if kind.opensGroup then depth + 1 else if kind.closesGroup then depth - 1 else depth

/-- The number of tokens before the end of the statement. -/
def statementLength (depth : Nat) : List Token → Nat
  | [] => 0
  | t :: ts =>
    if endsStatement depth t.kind then 0 else statementLength (depthAfter depth t.kind) ts + 1

/-- Where the first of the tokens starts, or the text ends. -/
def Context.startOf (cx : Context) : List Token → Position
  | [] => ⟨byteLength cx.source, 0, 0⟩
  | t :: _ => t.span.start

/-- The text of the tokens `piece`, behind which `rest` follows, without blanks at its ends. -/
def Context.textOf? (cx : Context) (piece rest : List Token) : Option (List Char) :=
  match piece with
  | [] => some []
  | t :: _ => (slice? cx.source t.span.start.byte (cx.startOf rest).byte).map trim

/-- The mark that makes a declaration important. -/
def importantMark : List Char := "!important".toList

/-- Takes the mark from the end of a value, whatever the case of its letters, and says whether it
was there. The mark is looked for in the value with small letters, and the value is cut where it
starts. -/
def splitImportant? (value : List Char) : Option (List Char × Bool) :=
  let small := value.map Char.toLower
  if importantMark.isSuffixOf small then
    let kept := small.take (small.length - importantMark.length)
    -- A letter and its small form have the same number of bytes.
    (slice? value 0 (byteLength kept)).map fun text => (trimEnd text, true)
  else some (value, false)

/-- The text between the marks of a comment. -/
def commentText (text : String) : String :=
  let cs := text.toList
  let cs := if ['/', '*'].isPrefixOf cs then cs.drop 2 else cs
  let cs := if ['*', '/'].isSuffixOf cs then cs.take (cs.length - 2) else cs
  String.ofList (trim cs)

/-- What the mark behind a statement makes of it. -/
inductive Ending where
  /-- An opening brace: a block follows. -/
  | block (brace : Token)
  /-- A semicolon, which belongs to the statement. -/
  | mark (semicolon : Token)
  /-- A closing brace or the end of the text. -/
  | none

/-- How the statement before the given tokens ends. -/
def Ending.ofTokens : List Token → Ending
  | [] => .none
  | t :: _ =>
    match t.kind with
    | .openBrace => .block t
    | .semicolon => .mark t
    | _ => .none

/-- The number of tokens of the ending. -/
def Ending.length : Ending → Nat
  | .block _ | .mark _ => 1
  | .none => 0

/-- Reads the at-rule that `keyword` starts. The number is that of the tokens read from those
behind the keyword. -/
def atRule? (cx : Context) (keyword : Token) (rest : List Token) (s : State) :
    Option (State × Nat) := do
  let n := statementLength 0 rest
  let name := String.ofList (keyword.text.toList.dropWhile (· == '@'))
  let params ← cx.textOf? (rest.take n) (rest.drop n)
  let content (body : Bool) := Content.atRule name (String.ofList params) body
  let start := keyword.span.start
  let piece := keyword :: rest.take n
  match Ending.ofTokens (rest.drop n) with
  | .block brace => return (s.openBlock (content true) start brace, n + 1)
  | .mark semicolon =>
    return ((s.readTo (piece ++ [semicolon])).add cx.input (content false) start, n + 1)
  -- The brace that closes the enclosing block is left for that block.
  | .none => return ((s.readTo piece).add cx.input (content false) start, n)

/-- Reads the declaration that the tokens `piece` make up, behind which `rest` follows. The first
colon divides them; without one the whole is an error. -/
def declaration? (cx : Context) (piece rest : List Token) (s : State) : Option State :=
  let start := cx.startOf piece
  let s := match Ending.ofTokens rest with
    | .mark semicolon => s.readTo (piece ++ [semicolon])
    | _ => s.readTo piece
  match piece.findIdx? (·.kind == .colon) with
  | none => do
    let text ← cx.textOf? piece rest
    return s.report (.missingColon (String.ofList text)) ⟨start, cx.startOf rest⟩
  | some i => do
    let property ← cx.textOf? (piece.take i) (piece.drop i)
    let value ← cx.textOf? (piece.drop (i + 1)) rest
    let (value, important) ← splitImportant? value
    return s.add cx.input
      (.declaration (String.ofList property) (String.ofList value) important) start

/-- Reads the rule or declaration that `first` starts. The number is that of the tokens read from
those behind it. -/
def statement? (cx : Context) (first : Token) (rest : List Token) (s : State) :
    Option (State × Nat) :=
  -- A brace with nothing before it opens a rule without a selector.
  if first.kind = .openBrace then some (s.openBlock (.rule "") first.span.start first, 0)
  else
    -- No other token that gets here ends a statement, but it may open a group.
    let n := statementLength (depthAfter 0 first.kind) rest
    let piece := first :: rest.take n
    match Ending.ofTokens (rest.drop n) with
    | .block brace => do
      let selector ← cx.textOf? piece (rest.drop n)
      return (s.openBlock (.rule (String.ofList selector)) first.span.start brace, n + 1)
    | ending => do
      let s ← declaration? cx piece (rest.drop n) s
      return (s, n + ending.length)

/-- Reads one token and the statement that it may start. The number is that of the tokens read
from those behind it. -/
def step (cx : Context) (token : Token) (rest : List Token) (s : State) : Option (State × Nat) :=
  match token.kind with
  | .blank | .semicolon => some (s.readTo [token], 0)
  | .closeBrace => some (s.closeBlock cx.input token, 0)
  | .comment =>
    some ((s.readTo [token]).add cx.input (.comment (commentText token.text)) token.span.start, 0)
  | .atKeyword => atRule? cx token rest s
  | _ => statement? cx token rest s

/-- Reads tokens up to the first that marks the end of the text. -/
def run (cx : Context) (tokens : List Token) (s : State) : Option State :=
  match tokens with
  | [] => some (s.closeAll cx.input s.frames)
  | token :: rest =>
    if token.kind = .stop then some (s.closeAll cx.input s.frames)
    else
      match step cx token rest s with
      | some (s, n) => run cx (rest.drop n) s
      | none => none
termination_by tokens.length
decreasing_by simp only [List.length_drop, List.length_cons]; omega

end Parser

/-- The trees that the tokens of a text stand for, and the errors met. There is no result if the
tokens do not lie on the text. -/
def parseTokens? (input : InputId) (source : String) (tokens : List Token) : Option Parsed :=
  (Parser.run ⟨source.toList, input⟩ tokens {}).map fun s => ⟨s.nodes, s.errors⟩

/-- The trees of a text. The errors of its tokens come before those of its statements. The tokens
of a text lie on it, so the first case is the only one that arises. -/
def parse (input : InputId) (source : String) : Parsed :=
  let lexed := tokenize source
  match parseTokens? input source lexed.tokens with
  | some parsed => ⟨parsed.nodes, lexed.errors ++ parsed.errors⟩
  | none => ⟨[], lexed.errors⟩

end ClassRules
