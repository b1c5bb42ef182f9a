/-!
# Naming styles

The two ways to build class names from parts, and the separators that each puts between the parts.

## What this module delivers

- `Style`: SUIT or BEM, with its name.
- `SeparatorKind`, `BySeparator`: the four kinds of separators, and a value for each of them.
- `Style.separators`: the separators of a style.
-/

set_option autoImplicit false

namespace ClassRules

/-- A way to build class names. -/
inductive Style where
  | suit
  | bem
  deriving DecidableEq, Repr, Inhabited

namespace Style

/-- The name of a style. -/
def name : Style → String
  | suit => "suit"
  | bem => "bem"

/-- The style with the given name. -/
def ofName? : String → Option Style
  | "suit" => some suit
  | "bem" => some bem
  | _ => none

end Style

/-- What a separator stands before: a name in a namespace, a descendent, a modifier or a state. -/
inductive SeparatorKind where
  | ns
  | descendent
  | modifier
  | state
  deriving DecidableEq, Repr

namespace SeparatorKind

/-- All kinds. -/
def all : List SeparatorKind := [ns, descendent, modifier, state]

/-- The name of a kind in options. -/
def key : SeparatorKind → String
  | ns => "namespace"
  | descendent => "descendent"
  | modifier => "modifier"
  | state => "state"

/-- The kind with the given name in options. -/
def ofKey? (key : String) : Option SeparatorKind :=
  all.find? (·.key == key)

end SeparatorKind

/-- A value for each kind of separator. -/
structure BySeparator (α : Type) where
  ns : α
  descendent : α
  modifier : α
  state : α
  deriving DecidableEq, Repr

namespace BySeparator

variable {α : Type}

/-- The value for a kind. -/
def get (values : BySeparator α) : SeparatorKind → α
  | .ns => values.ns
  | .descendent => values.descendent
  | .modifier => values.modifier
  | .state => values.state

/-- Changes the value for a kind. -/
def set (values : BySeparator α) (kind : SeparatorKind) (value : α) : BySeparator α :=
  match kind with
  | .ns => { values with ns := value }
  | .descendent => { values with descendent := value }
  | .modifier => { values with modifier := value }
  | .state => { values with state := value }

/-- The values given by a function of the kind. -/
def ofFn (f : SeparatorKind → α) : BySeparator α :=
  ⟨f .ns, f .descendent, f .modifier, f .state⟩

@[simp] theorem get_ofFn (f : SeparatorKind → α) (kind : SeparatorKind) :
    (ofFn f).get kind = f kind := by
  cases kind <;> rfl

theorem get_set (values : BySeparator α) (kind other : SeparatorKind) (value : α) :
    (values.set kind value).get other = if other = kind then value else values.get other := by
  cases kind <;> cases other <;> rfl

end BySeparator

/-- The separators of a style: `ns-Name`, `Name-descendent`, `Name--modifier` and `.Name.is-state`
in SUIT, `ns--name`, `name__descendent` and `name_modifier` in BEM. -/
def Style.separators : Style → BySeparator String
  | suit => ⟨"-", "-", "--", ".is-"⟩
  | bem => ⟨"--", "__", "_", ".is-"⟩

end ClassRules
