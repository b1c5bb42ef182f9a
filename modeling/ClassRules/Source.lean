import ClassRules.Span

/-!
# Inputs and sources

Where the parts of a sheet come from.

## What this module delivers

- `Input`: a text that was read, known by its file or by an identifier; `Input.name` is what
  messages call it.
- `Source`: a span of one of a sheet's inputs.
- `Location`: a named input with a line and a column, counted from one, and its text.
-/

set_option autoImplicit false

namespace ClassRules

/-- A text that was read into a sheet. -/
structure Input where
  id : String
  file : Option String
  deriving DecidableEq, Repr

namespace Input

/-- The input read from a file. -/
def ofFile (file : String) : Input :=
  ⟨file, some file⟩

/-- The input that is not read from a file and stands at the given place among a sheet's inputs,
counted from one. -/
def anonymous (place : Nat) : Input :=
  ⟨"<input css " ++ toString place ++ ">", none⟩

/-- What messages call an input. -/
def name (i : Input) : String :=
  i.file.getD i.id

end Input

/-- A handle on one of the inputs of a sheet. -/
structure InputId where
  index : Nat
  deriving DecidableEq, Repr

/-- Where a node comes from. -/
structure Source where
  input : InputId
  span : Span
  deriving DecidableEq, Repr

/-- A line and a column of a named input, both counted from one. -/
structure Location where
  input : String
  line : Nat
  column : Nat
  deriving DecidableEq, Repr

/-- The text of a location. -/
def Location.text (l : Location) : String :=
  l.input ++ ":" ++ toString l.line ++ ":" ++ toString l.column

/-- A message behind the location that it is about, or alone without one. -/
def Location.prepend (location : Option Location) (message : String) : String :=
  match location with
  | some l => l.text ++ ": " ++ message
  | none => message

end ClassRules
