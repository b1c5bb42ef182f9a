import ClassRules.Naming.Style

/-!
# Conventions

A style together with the separators in force.

## What this module delivers

- `Convention`, and `Convention.ofStyle` with the style's own separators.
- `Convention.join`: two parts of a name with a separator between them.
- `Convention.rewritesUtilities`, `rewritesStates`: what only SUIT has classes for.
- `utilityVariant?`: the short forms of the sizes of utilities.
-/

set_option autoImplicit false

namespace ClassRules

/-- A style and the separators in force. -/
structure Convention where
  style : Style
  separators : BySeparator String
  deriving DecidableEq, Repr

namespace Convention

/-- A style with its own separators. -/
def ofStyle (style : Style) : Convention :=
  ⟨style, style.separators⟩

/-- Whether states get classes. -/
def rewritesStates (c : Convention) : Bool :=
  c.style == .suit

/-- Whether utilities get classes. -/
def rewritesUtilities (c : Convention) : Bool :=
  c.style == .suit

/-- Two parts of a name with a separator between them. -/
def join (c : Convention) (kind : SeparatorKind) (left right : String) : String :=
  left ++ c.separators.get kind ++ right

/-- A component's name in a namespace. -/
def joinNamespace (c : Convention) : String → String → String := c.join .ns

/-- A descendent's name under the class of its parent. -/
def joinDescendent (c : Convention) : String → String → String := c.join .descendent

/-- A modifier's name under the class of its parent. -/
def joinModifier (c : Convention) : String → String → String := c.join .modifier

/-- A selector in a state. -/
def joinState (c : Convention) : String → String → String := c.join .state

end Convention

/-- The short form of a utility's size. -/
def utilityVariant? : String → Option String
  | "small" => some "sm"
  | "medium" => some "md"
  | "large" => some "lg"
  | _ => none

end ClassRules
