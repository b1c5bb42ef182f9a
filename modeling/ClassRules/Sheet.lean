import ClassRules.Tree
import ClassRules.Tree.Parser
import ClassRules.Tree.Printer

/-!
# Sheets

A style sheet that can be changed: nodes that know their parents and children, and the inputs that
they were read from. A node that is taken out stays in the sheet, so handles on it stay good; only
what hangs on the root is part of the text.

## What this module delivers

- `NodeId`, `Node`, `Sheet`, `Sheet.empty`, `Sheet.root`.
- `Sheet.node`: the node behind a handle; `Sheet.modify`, with `node_modify_self` and
  `node_modify_of_ne`.
- `Sheet.create`, `createRule`: new nodes that hang on nothing yet.
- `Sheet.addInput`, `addText`: a new input, and the trees of a text under the root.
- `Sheet.tree`, `Sheet.print`: what hangs on a node as a plain tree, and the text of the sheet.
-/

set_option autoImplicit false

namespace ClassRules

/-- A handle on a node of a sheet. -/
structure NodeId where
  index : Nat
  deriving DecidableEq, Repr

/-- A node of a sheet: what it says, where it comes from, and what it hangs on and carries. -/
structure Node where
  content : Content
  source : Option Source := none
  parent : Option NodeId := none
  children : List NodeId := []
  deriving DecidableEq, Repr

instance : Inhabited Node := ⟨⟨.root, none, none, []⟩⟩

/-- Nodes and inputs, both numbered from zero. The first node is the root. -/
structure Sheet where
  nodes : Array Node
  inputs : Array Input
  deriving DecidableEq, Repr

namespace Sheet

/-- The sheet with a root and nothing else. -/
def empty : Sheet :=
  ⟨#[{ content := .root }], #[]⟩

/-- The node that stands for the whole sheet. -/
def root : NodeId := ⟨0⟩

/-! ## Reading nodes -/

/-- The node behind a handle. A handle of another sheet may stand for nothing; it then reads as a
lone root. -/
def node (s : Sheet) (id : NodeId) : Node :=
  s.nodes[id.index]?.getD default

/-- What a node says. -/
def content (s : Sheet) (id : NodeId) : Content := (s.node id).content

/-- The kind of a node. -/
def kind (s : Sheet) (id : NodeId) : Content.Kind := (s.content id).kind

/-- Where a node comes from. -/
def source (s : Sheet) (id : NodeId) : Option Source := (s.node id).source

/-- What a node hangs on. -/
def parent (s : Sheet) (id : NodeId) : Option NodeId := (s.node id).parent

/-- The nodes that hang on a node, in order. -/
def children (s : Sheet) (id : NodeId) : List NodeId := (s.node id).children

/-- The params of an at-rule; nothing for other nodes. -/
def params (s : Sheet) (id : NodeId) : String := (s.content id).params?.getD ""

/-- The selector of a rule; nothing for other nodes. -/
def selector (s : Sheet) (id : NodeId) : String := (s.content id).selector?.getD ""

/-- What messages call an input. -/
def inputName (s : Sheet) (id : InputId) : String :=
  (s.inputs[id.index]?.map Input.name).getD ""

/-- What messages call the input that a node comes from. -/
def sourceName? (s : Sheet) (id : NodeId) : Option String :=
  (s.source id).map fun source => s.inputName source.input

/-- Whether the place that a node comes from can be given by a line and a column. -/
def isLocatable (s : Sheet) (id : NodeId) : Bool :=
  (s.source id).all (·.span.start.isCountable)

/-- The place that a node comes from. -/
def location? (s : Sheet) (id : NodeId) : Option Location :=
  (s.source id).map fun source =>
    ⟨s.inputName source.input, source.span.start.line + 1, source.span.start.column + 1⟩

/-! ## Changing and adding nodes -/

/-- Changes one node. -/
def modify (s : Sheet) (id : NodeId) (f : Node → Node) : Sheet :=
  { s with nodes := s.nodes.modify id.index f }

/-- Changes what a node says. -/
def setContent (s : Sheet) (id : NodeId) (content : Content) : Sheet :=
  s.modify id fun n => { n with content := content }

/-- Changes where a node comes from. -/
def setSource (s : Sheet) (id : NodeId) (source : Option Source) : Sheet :=
  s.modify id fun n => { n with source := source }

/-- Adds a node that hangs on nothing. -/
def create (s : Sheet) (content : Content) (source : Option Source) : NodeId × Sheet :=
  (⟨s.nodes.size⟩, { s with nodes := s.nodes.push { content := content, source := source } })

/-- Adds a rule that comes from where `origin` comes from. -/
def createRule (s : Sheet) (selector : String) (origin : NodeId) : NodeId × Sheet :=
  s.create (.rule selector) (s.source origin)

theorem node_modify_self {s : Sheet} {id : NodeId} (f : Node → Node)
    (h : id.index < s.nodes.size) : (s.modify id f).node id = f (s.node id) := by
  simp [node, modify, h, Array.getElem_modify_self]

theorem node_modify_of_ne {s : Sheet} {id other : NodeId} (f : Node → Node) (h : other ≠ id) :
    (s.modify id f).node other = s.node other := by
  have h' : id.index ≠ other.index := fun e => h (by cases other; cases id; simp_all)
  simp [node, modify, Array.getElem?_modify, h']

@[simp] theorem size_modify (s : Sheet) (id : NodeId) (f : Node → Node) :
    (s.modify id f).nodes.size = s.nodes.size := by
  simp [modify]

theorem node_create_of_lt {s : Sheet} {id : NodeId} (content : Content) (source : Option Source)
    (h : id.index < s.nodes.size) : (s.create content source).2.node id = s.node id := by
  simp [node, create, Array.getElem?_push, Nat.ne_of_lt h]

theorem node_create_self (s : Sheet) (content : Content) (source : Option Source) :
    (s.create content source).2.node (s.create content source).1 =
      { content := content, source := source } := by
  simp [node, create]

/-! ## Trees in a sheet -/

mutual

/-- The nodes of a tree, numbered in document order from `next` on. -/
def layOut (parent : NodeId) (next : Nat) : Tree → List Node
  | .node content source children =>
    ⟨content, source, some parent, childIds (next + 1) children⟩ ::
      layOutAll ⟨next⟩ (next + 1) children

/-- The nodes of a list of trees with the same parent. -/
def layOutAll (parent : NodeId) (next : Nat) : List Tree → List Node
  | [] => []
  | t :: ts => layOut parent next t ++ layOutAll parent (next + t.size) ts

/-- The handles of the topmost nodes of a list of trees. -/
def childIds (next : Nat) : List Tree → List NodeId
  | [] => []
  | t :: ts => ⟨next⟩ :: childIds (next + t.size) ts

end

/-- Adds trees behind the children of a node. -/
def addForest (s : Sheet) (parent : NodeId) (trees : List Tree) : Sheet :=
  let next := s.nodes.size
  let s := s.modify parent fun n => { n with children := n.children ++ childIds next trees }
  { s with nodes := s.nodes ++ (layOutAll parent next trees).toArray }

/-- Adds an input. -/
def addInput (s : Sheet) (input : Input) : InputId × Sheet :=
  (⟨s.inputs.size⟩, { s with inputs := s.inputs.push input })

/-- The next input that has no file. -/
def nextAnonymous (s : Sheet) : Input :=
  .anonymous (s.inputs.size + 1)

/-- Adds an input and the trees of its text, under the root. The errors of the text are given
back. -/
def addText (s : Sheet) (input : Input) (text : String) : List ParseError × Sheet :=
  let (id, s) := s.addInput input
  let parsed := parse id text
  (parsed.errors, s.addForest root parsed.nodes)

/-- What hangs on a node as a plain tree, down to `fuel` levels below it. -/
def treeTo (s : Sheet) : Nat → NodeId → Tree
  | 0, id => .node (s.content id) (s.source id) []
  | fuel + 1, id => .node (s.content id) (s.source id) ((s.children id).map (s.treeTo fuel))

/-- What hangs on a node as a plain tree. No node stands deeper than there are nodes. -/
def tree (s : Sheet) (id : NodeId) : Tree :=
  s.treeTo s.nodes.size id

/-- The text of what hangs on the root. -/
def print (s : Sheet) : String :=
  Tree.renderForest 0 (s.tree root).children

/-- The text of a node. -/
def printNode (s : Sheet) (id : NodeId) : String :=
  (s.tree id).render 0

end Sheet

end ClassRules
