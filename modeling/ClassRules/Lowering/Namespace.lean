import ClassRules.KeyedList
import ClassRules.Lowering.Component

/-!
# Namespaces

`@component-namespace name;` gives the components of its input a namespace. With a block instead
of the semicolon it does so for the components in the block, which is then replaced by what it
holds.

## What this module delivers

- `NamespaceMap`: the namespaces of inputs by their names.
- `unwrapBlock`: puts the children of a block in its place.
- `lowerNamespace`, `lowerNamespaces`: one at-rule, and all of them in document order.
- `lowerComponents`: the components that are left, each in the namespace of its input.
-/

set_option autoImplicit false

namespace ClassRules

/-- A namespace for each of some inputs, by their names. -/
structure NamespaceMap where
  entries : List (String × String) := []
  deriving DecidableEq, Repr

namespace NamespaceMap

/-- Gives an input a namespace in place of an earlier one. -/
def insert (m : NamespaceMap) (source ns : String) : NamespaceMap :=
  ⟨KeyedList.insert source ns m.entries⟩

/-- The namespace of an input. -/
def get? (m : NamespaceMap) (source : String) : Option String :=
  KeyedList.get? m.entries source

/-- The number of inputs with a namespace. -/
def size (m : NamespaceMap) : Nat :=
  m.entries.length

/-- Whether no input has a namespace. -/
def isEmpty (m : NamespaceMap) : Bool :=
  m.entries.isEmpty

end NamespaceMap

namespace Lowering

/-- Puts the children of a block in its place: the last child behind the block, the one before it
in between, and so on. The block is taken out. -/
def unwrapBlock (p : Progress) (block : NodeId) : Except Stopped Progress :=
  match p.sheet.parent block with
  | some container => do
    let p ← (p.sheet.children block).reverse.foldlM (fun p child =>
      p.insertAfter container block child) p
    return p.remove block
  | none => .ok (p.remove block)

/-- Lowers the components in a block that are still attached. -/
def lowerBlock (cx : Context) (p : Progress) (block : NodeId) (ns : String) :
    Except Stopped Progress :=
  -- A keyword may mean two kinds, and then a component can be gone before its turn comes.
  (cx.find p.sheet block .component).foldlM (fun p component =>
    if p.sheet.isAttached component then lowerComponent cx p component (some ns) else .ok p) p

/-- Notes the namespace of an input, or lowers the components in a block and unwraps it. -/
def lowerNamespace (cx : Context) (state : NamespaceMap × Progress) (atRule : NodeId) :
    Except Stopped (NamespaceMap × Progress) :=
  let (map, p) := state
  let ns := p.sheet.params atRule
  let counted := p.count fun c => { c with namespaces := c.namespaces + 1 }
  if !p.sheet.isAttached atRule then .ok state
  else if (p.sheet.content atRule).hasBody then do
    -- Components of inner blocks are lowered here as well, in the namespace of the outer one.
    let p ← lowerBlock cx counted atRule ns
    return (map, ← unwrapBlock p atRule)
  else
    let map := match p.sheet.sourceName? atRule with
      | some source => map.insert source ns
      | none => map
    .ok (map, counted.remove atRule)

/-- Lowers the namespaces of the sheet, and gives those of whole inputs back. -/
def lowerNamespaces (cx : Context) (p : Progress) : Except Stopped (NamespaceMap × Progress) :=
  (cx.find p.sheet Sheet.root .componentNamespace).foldlM (lowerNamespace cx) ({}, p)

/-- The namespace of a component outside all blocks: that of its input, or else the default. -/
def namespaceOf (s : Sheet) (map : NamespaceMap) (default : Option String) (component : NodeId) :
    Option String :=
  ((s.sourceName? component).bind map.get?).or default

/-- Lowers the components of the sheet. -/
def lowerComponents (cx : Context) (map : NamespaceMap) (default : Option String) (p : Progress) :
    Except Stopped Progress :=
  (cx.find p.sheet Sheet.root .component).foldlM (fun p component =>
    if p.sheet.isAttached component then
      lowerComponent cx p component (namespaceOf p.sheet map default component)
    else .ok p) p

end Lowering

end ClassRules
