import ClassRules.CommandLine.Files

/-!
# Paths

Places among files, and the texts that lead to them.

## What this module delivers

- `Place`: the names on the way to a place, from the folder where a command runs, from one above
  it, or from the root; `Place.down`, `Place.up`: one step on such a way.
- `Path.ofString`: the names in a text and the place where they start.
-/

set_option autoImplicit false

namespace ClassRules

/-- Where the way to a place starts. -/
inductive Place.Base where
  /-- So many levels above the folder where the command runs. -/
  | above (levels : Nat)
  | root
  deriving DecidableEq, Repr

/-- A place among files: the names on the way to it. -/
structure Place where
  base : Place.Base
  names : List String
  deriving DecidableEq, Repr

namespace Place

/-- The folder where the command runs. -/
def here : Place := ⟨.above 0, []⟩

/-- The folder that all others are in. -/
def root : Place := ⟨.root, []⟩

/-- The place with the given name in a folder. -/
def down (p : Place) (name : String) : Place :=
  { p with names := p.names ++ [name] }

/-- The folder that a place is in. The root is in itself. -/
def up (p : Place) : Place :=
  if p.names.isEmpty then
    match p.base with
    | .above levels => ⟨.above (levels + 1), []⟩
    | .root => root
  else { p with names := p.names.dropLast }

/-- Whether the place `q` is in the folder `p` or in one under it. -/
def holds (p q : Place) : Bool :=
  p.base = q.base && p.names.isPrefixOf q.names && p.names.length < q.names.length

end Place

/-- A path: names to follow from a place. -/
structure Path where
  start : Place
  names : List String
  /-- Whether a slash stands behind the last name. -/
  slash : Bool
  deriving DecidableEq, Repr

namespace Path

/-- The largest number of bytes of a name. -/
def nameLimit : Nat := 255

/-- The largest number of bytes of a path. -/
def lengthLimit : Nat := 4095

/-- The path that a text stands for. Names are set apart by slashes, any number of them, and one at
the front is for the root. -/
def ofString (text : String) : Except FileFault Path :=
  if text = "" then .error .notFound
  else if lengthLimit < text.utf8ByteSize then .error .nameTooLong
  else .ok {
    start := if text.startsWith "/" then .root else .here
    names := (text.splitOn "/").filter (· ≠ "")
    slash := text.endsWith "/" }

end Path

end ClassRules
