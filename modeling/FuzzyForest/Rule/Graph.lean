/-
Drawing a tree.

`Graph.ofCode` finds the parent of every node by the same discipline as running the tree, with a
stack of positions in place of values, and `Graph.dot` writes the drawing in the DOT language.
-/
import FuzzyForest.Rule.Token

namespace FuzzyForest

/-- A node of a drawing. -/
structure GraphNode (α : Type) where
  index : Nat
  /-- What is written into the node. -/
  label : Instruction α
  /-- The positions of the operands, nearest first. -/
  children : List Nat
deriving DecidableEq, Repr

/-- The drawing of a tree. -/
abbrev Graph (α : Type) := List (GraphNode α)

namespace Graph

variable {α : Type}

/-- The nodes of the code that stands at `index`, on a stack of the positions not yet used. -/
def nodesFrom (index : Nat) (stack : List Nat) : Code α → Graph α
  | [] => []
  | i :: rest =>
    if i.isLive then
      ⟨index, i, stack.take i.arity⟩ :: nodesFrom (index + 1) (index :: stack.drop i.arity) rest
    else nodesFrom (index + 1) stack rest

/-- The drawing of a tree. -/
def ofCode (code : Code α) : Graph α := nodesFrom 0 [] code

/-- The labels of nodes that lack children, once for each child. -/
def unbalanced (g : Graph α) : List (Instruction α) :=
  g.flatMap fun node => List.replicate (node.label.arity - node.children.length) node.label

/-- The drawing in the DOT language. -/
def dot (g : Graph Float) : String :=
  let edge (node child : Nat) := toString node ++ " -> " ++ toString child ++ "; "
  let statement (node : GraphNode Float) :=
    toString node.index ++ " [ label = \"" ++ node.label.tokenFixed 3 ++ "\" ]; "
      ++ String.join (node.children.map (edge node.index))
  "digraph query \x7b " ++ String.join (g.map statement) ++ "\x7d"

end Graph

end FuzzyForest
