import ClassRules.Naming.Convention
import ClassRules.Naming.RuleKind

/-!
# Options

What can be chosen for a run.

## What this module delivers

- `Options`: the style, separators other than the style's own, shortcuts, and the namespace of
  components that have no other.
- `Options.withStyle`, `withSeparator`, `withShortcut`, `withDefaultNamespace`: one choice at a
  time.
- `Options.convention`: the style with the separators in force.
-/

set_option autoImplicit false

namespace ClassRules

/-- The choices for a run. -/
structure Options where
  style : Style := .suit
  overrides : BySeparator (Option String) := .ofFn fun _ => none
  shortcuts : Shortcuts := {}
  defaultNamespace : Option String := none
  deriving DecidableEq, Repr

namespace Options

/-- Chooses the style. -/
def withStyle (o : Options) (style : Style) : Options :=
  { o with style := style }

/-- Chooses a separator. -/
def withSeparator (o : Options) (kind : SeparatorKind) (value : String) : Options :=
  { o with overrides := o.overrides.set kind (some value) }

/-- Chooses a shortcut. The empty keyword removes it. -/
def withShortcut (o : Options) (kind : RuleKind) (keyword : String) : Options :=
  { o with shortcuts := o.shortcuts.set kind keyword }

/-- Chooses the default namespace. The empty name means none. -/
def withDefaultNamespace (o : Options) (name : String) : Options :=
  { o with defaultNamespace := if name = "" then none else some name }

/-- The style with its own separators, as far as none are chosen in their place. -/
def convention (o : Options) : Convention where
  style := o.style
  separators := .ofFn fun kind => (o.overrides.get kind).getD (o.style.separators.get kind)

end Options

end ClassRules
