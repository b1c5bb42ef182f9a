/-!
# Kinds of custom at-rules

The six at-rules that stand for classes, their keywords, and other keywords for them.

## What this module delivers

- `RuleKind`, `RuleKind.keyword`, `RuleKind.ofKeyword?`.
- `Shortcuts`: at most one more keyword for each kind.
- `Shortcuts.names`: whether a keyword means a kind, by itself or as a shortcut.
-/

set_option autoImplicit false

namespace ClassRules

/-- A kind of custom at-rule. -/
inductive RuleKind where
  | utility
  | componentNamespace
  | component
  | modifier
  | descendent
  | when
  deriving DecidableEq, Repr

namespace RuleKind

/-- All kinds. -/
def all : List RuleKind :=
  [utility, componentNamespace, component, modifier, descendent, when]

/-- The keyword of a kind. -/
def keyword : RuleKind → String
  | utility => "utility"
  | componentNamespace => "component-namespace"
  | component => "component"
  | modifier => "modifier"
  | descendent => "descendent"
  | when => "when"

/-- The kind with the given keyword. -/
def ofKeyword? (keyword : String) : Option RuleKind :=
  all.find? (·.keyword == keyword)

theorem mem_all (kind : RuleKind) : kind ∈ all := by
  cases kind <;> decide

/-- Each kind has its own keyword. -/
theorem keyword_inj {kind kind' : RuleKind} (h : kind.keyword = kind'.keyword) : kind = kind' := by
  have hall : ∀ kind ∈ all, ∀ kind' ∈ all, kind.keyword = kind'.keyword → kind = kind' := by decide
  exact hall kind kind.mem_all kind' kind'.mem_all h

end RuleKind

/-- At most one more keyword for each kind of at-rule. -/
structure Shortcuts where
  utility : Option String := none
  componentNamespace : Option String := none
  component : Option String := none
  modifier : Option String := none
  descendent : Option String := none
  when : Option String := none
  deriving DecidableEq, Repr

namespace Shortcuts

/-- The shortcut for a kind. -/
def get (s : Shortcuts) : RuleKind → Option String
  | .utility => s.utility
  | .componentNamespace => s.componentNamespace
  | .component => s.component
  | .modifier => s.modifier
  | .descendent => s.descendent
  | .when => s.when

/-- Changes or removes the shortcut for a kind. -/
def put (s : Shortcuts) (kind : RuleKind) (shortcut : Option String) : Shortcuts :=
  match kind with
  | .utility => { s with utility := shortcut }
  | .componentNamespace => { s with componentNamespace := shortcut }
  | .component => { s with component := shortcut }
  | .modifier => { s with modifier := shortcut }
  | .descendent => { s with descendent := shortcut }
  | .when => { s with when := shortcut }

/-- Sets the shortcut for a kind. The empty keyword removes it. -/
def set (s : Shortcuts) (kind : RuleKind) (keyword : String) : Shortcuts :=
  s.put kind (if keyword = "" then none else some keyword)

/-- Whether an at-rule with the given keyword is of the kind. -/
def names (s : Shortcuts) (kind : RuleKind) (keyword : String) : Bool :=
  keyword == kind.keyword || s.get kind == some keyword

/-- Whether there is no shortcut at all. -/
def isEmpty (s : Shortcuts) : Bool :=
  RuleKind.all.all fun kind => (s.get kind).isNone

theorem get_put (s : Shortcuts) (kind other : RuleKind) (shortcut : Option String) :
    (s.put kind shortcut).get other = if other = kind then shortcut else s.get other := by
  cases kind <;> cases other <;> rfl

/-- Without shortcuts, only its keyword means a kind. -/
theorem names_empty (kind : RuleKind) (name : String) :
    Shortcuts.names {} kind name = (name == kind.keyword) := by
  cases kind <;> simp [names, get]

end Shortcuts

end ClassRules
