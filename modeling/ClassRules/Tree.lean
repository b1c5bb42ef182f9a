import ClassRules.Content
import ClassRules.Source

/-!
# Trees

A node of a style sheet with everything under it, as a plain value.

## What this module delivers

- `Tree`: a content, its source, and the trees of the children in order.
- `Tree.size`, `Tree.forestSize`: the number of nodes.
- `Tree.walk`, `Tree.walkForest`: the nodes in document order with their depths.
-/

set_option autoImplicit false

namespace ClassRules

/-- A node with everything under it. -/
inductive Tree where
  | node (content : Content) (source : Option Source) (children : List Tree)
  deriving Inhabited

namespace Tree

/-- The content of the topmost node. -/
def content : Tree → Content
  | node content _ _ => content

/-- The source of the topmost node. -/
def source : Tree → Option Source
  | node _ source _ => source

/-- The trees below the topmost node. -/
def children : Tree → List Tree
  | node _ _ children => children

mutual

/-- The number of nodes of a tree. -/
def size : Tree → Nat
  | node _ _ children => forestSize children + 1

/-- The number of nodes of a list of trees. -/
def forestSize : List Tree → Nat
  | [] => 0
  | t :: ts => size t + forestSize ts

end

mutual

/-- The nodes of a tree in document order: the depth, content and source of each. -/
def walk (depth : Nat) : Tree → List (Nat × Content × Option Source)
  | node content source children => (depth, content, source) :: walkForest (depth + 1) children

/-- The nodes of a list of trees in document order. -/
def walkForest (depth : Nat) : List Tree → List (Nat × Content × Option Source)
  | [] => []
  | t :: ts => walk depth t ++ walkForest depth ts

end

end Tree

end ClassRules
