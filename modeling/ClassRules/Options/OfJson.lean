import ClassRules.Json.Printer
import ClassRules.Options
import ClassRules.Text.Quoted

/-!
# Options from JSON

Options are written as an object with the fields `style`, `separators`, `shortcuts` and
`defaultNamespace`, or as an array of these four in that order.

## What this module delivers

- `Options.Fault`: what can be wrong with such a value, and `Options.Fault.message`.
- `Options.ofJson`: the options that a value stands for. All types are checked before any content.
-/

set_option autoImplicit false

namespace ClassRules.Options

/-- What a part of the options should have been. -/
inductive Wanted where
  | options
  | map
  | string
  deriving DecidableEq, Repr

/-- What is wrong with options. -/
inductive Fault where
  /-- The style is neither of the two. -/
  | style (found : Json)
  /-- A separator is not a string. -/
  | separator (name : String)
  /-- A part has the wrong type. -/
  | type (found : Json) (wanted : Wanted)
  /-- The array has more items than there are options. -/
  | length (count : Nat)

namespace Fault

/-- The words for the type of a value, with the value itself if it is short. -/
def describe : Json → String
  | .null => "null"
  | .boolean b => "boolean `" ++ (if b then "true" else "false") ++ "`"
  | .integer n => "integer `" ++ toString n ++ "`"
  | .float x => "floating point `" ++ Json.floatText x ++ "`"
  | .string s => "string " ++ Text.quoted s
  | .array _ => "sequence"
  | .object _ => "map"

/-- The words for what should have been there. -/
def wantedText : Wanted → String
  | .options => "struct RawOptions"
  | .map => "a map"
  | .string => "a string"

/-- A style that was not understood: a string between quotes, another value as JSON. -/
def styleText : Json → String
  | .string s => Text.quoted s
  | value => value.compact

/-- The words for a fault. -/
def message : Fault → String
  | style found => "opts.style may only be \"suit\" or \"bem\", got " ++ styleText found
  | separator name => "opts.separators." ++ name ++ " must be a string"
  | type found wanted =>
    "Invalid options: invalid type: " ++ describe found ++ ", expected " ++ wantedText wanted
  | length count =>
    "Invalid options: invalid length " ++ toString count ++
      ", expected fewer elements in array"

end Fault

/-- Options whose parts have the right types. -/
structure Draft where
  style : Json := .null
  separators : List (String × Json) := []
  shortcuts : List (String × Json) := []
  defaultNamespace : Option String := none

namespace Draft

/-- Reads a value that should be an object or absent. -/
def map (value : Json) : Except Fault (List (String × Json)) :=
  match value with
  | .null => .ok []
  | .object fields => .ok fields
  | value => .error (.type value .map)

/-- Reads a value that should be a string or absent. -/
def string (value : Json) : Except Fault (Option String) :=
  match value with
  | .null => .ok none
  | .string s => .ok (some s)
  | value => .error (.type value .string)

/-- Reads one field. Others than the four are ignored. -/
def addField (d : Draft) (field : String × Json) : Except Fault Draft :=
  match field with
  | ("style", value) => .ok { d with style := value }
  | ("separators", value) => (map value).map fun fields => { d with separators := fields }
  | ("shortcuts", value) => (map value).map fun fields => { d with shortcuts := fields }
  | ("defaultNamespace", value) => (string value).map fun ns => { d with defaultNamespace := ns }
  | _ => .ok d

/-- The fields in the order that an array has them. -/
def names : List String := ["style", "separators", "shortcuts", "defaultNamespace"]

/-- The types of all parts are checked in the order in which they stand. -/
def ofJson (value : Json) : Except Fault Draft :=
  match value with
  | .null => .ok {}
  | .object fields => fields.foldlM addField {}
  | .array items => do
    let d ← (names.zip items).foldlM addField {}
    if names.length < items.length then .error (.length items.length) else .ok d
  | value => .error (.type value .options)

/-- The style; none or an empty one is SUIT. -/
def readStyle (value : Json) : Except Fault Style :=
  match value with
  | .null | .string "" => .ok .suit
  | .string name =>
    match Style.ofName? name with
    | some style => .ok style
    | none => .error (.style value)
  | value => .error (.style value)

/-- Puts a separator in the place of the style's own. It has to be a string even if its name means
nothing. -/
def addSeparator (o : Options) (field : String × Json) : Except Fault Options :=
  match field with
  | (name, .string value) =>
    match SeparatorKind.ofKey? name with
    | some kind => .ok { o with overrides := o.overrides.set kind (some value) }
    | none => .ok o
  | (name, _) => .error (.separator name)

/-- Sets a shortcut. One that is not a string, or not for one of the kinds, is ignored. -/
def addShortcut (o : Options) (field : String × Json) : Options :=
  match RuleKind.ofKeyword? field.1, field.2 with
  | some kind, .string keyword => { o with shortcuts := o.shortcuts.set kind keyword }
  | _, _ => o

/-- The options: first the style, then the separators, then what cannot go wrong. An empty default
namespace is none. -/
def resolve (d : Draft) : Except Fault Options := do
  let style ← readStyle d.style
  let o ← d.separators.foldlM addSeparator { style := style }
  let o := d.shortcuts.foldl addShortcut o
  return { o with defaultNamespace := d.defaultNamespace.filter (· ≠ "") }

end Draft

/-- The options that a JSON value stands for. -/
def ofJson (value : Json) : Except Fault Options := do
  (← Draft.ofJson value).resolve

end ClassRules.Options
