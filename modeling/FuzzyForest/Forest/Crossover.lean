/-
Crossing forests.

Two forests with the same number of trees exchange subtrees tree by tree.  A pair of trees is
either copied without its placeholders, or a subtree of one takes the place of a subtree of the
other and the other way round.  Where lone terminals are forbidden, exchanges and offspring that
would come to that are refused.
-/
import FuzzyForest.Forest.Basic
import FuzzyForest.Session

namespace FuzzyForest

namespace Forest

/-- The length that the offspring of nontrivial forests must exceed. -/
def leastOffspring : Nat := 2

/-- The instructions that are no placeholders. -/
def live (code : Code Float) : Code Float := code.compact

/-- A tree for an offspring: its live part and its separator. -/
def treeCopy (tree : Code Float) : Code Float := live tree ++ [Instruction.separator]

/-- A tree of a forest and a node in it. -/
structure Site where
  code : Code Float
  start : Nat
  /-- Where the tree ends, its separator left out. -/
  stop : Nat
  /-- Where the node stands. -/
  root : Nat
  /-- Where the subtree of the node starts. -/
  left : Nat

namespace Site

/-- The site of a node. -/
def of (code : Code Float) (start stop root : Nat) (node : Instruction Float) : Site :=
  { code, start, stop, root
    left := root - Code.reachOf node (code.take root).reverse }

/-- The whole tree. -/
def tree (s : Site) : Code Float := s.code.slice (s.start, s.stop)

/-- The code of the tree before the subtree. -/
def front (s : Site) : Code Float := s.code.slice (s.start, s.left)

/-- The subtree. -/
def subtree (s : Site) : Code Float := s.code.slice (s.left, s.root + 1)

/-- The code of the tree behind the subtree. -/
def back (s : Site) : Code Float := s.code.slice (s.root + 1, s.stop)

/-- The number of live instructions below the node. -/
def below (s : Site) : Nat := (s.code.slice (s.left, s.root)).liveCount

/-- The tree with the subtree of another site in place of its own. -/
def graft (s other : Site) : Code Float := live s.front ++ live other.subtree ++ treeCopy s.back

/-- Whether a lone terminal would take the place of a whole tree. -/
def degenerate (a b : Site) : Bool :=
  (a.below = 0 ∧ b.below + 1 = b.tree.liveCount) ∨ (b.below = 0 ∧ a.below + 1 = a.tree.liveCount)

end Site

/-- A pair of trees after crossing at two sites.  A subtree that reaches back beyond its tree cannot
be cut out. -/
def exchanged (nontrivial : Bool) (a b : Site) : Except Error (Code Float × Code Float) :=
  if nontrivial ∧ a.degenerate b then .ok (treeCopy a.tree, treeCopy b.tree)
  else if a.left < a.start ∨ b.left < b.start then .error .outOfBounds
  else .ok (a.graft b, b.graft a)

/-- One pair of trees after crossing with probability `p`. -/
def crossTree (nontrivial : Bool) (p : Float) (a b : Code Float) (start1 stop1 start2 stop2 : Nat) :
    Draw (Code Float × Code Float) := do
  let copies := (treeCopy (a.slice (start1, stop1)), treeCopy (b.slice (start2, stop2)))
  if start1 < stop1 ∧ start2 < stop2 then
    if (← Draw.unit) < p then do
      let root1 ← Draw.between start1 stop1
      let root2 ← Draw.between start2 stop2
      match a[root1]?, b[root2]? with
      | some node1, some node2 =>
        if node1.isNoOp ∨ node2.isNoOp then return copies
        else Act.lift (exchanged nontrivial (.of a start1 stop1 root1 node1)
          (.of b start2 stop2 root2 node2))
      | _, _ => Act.fail .outOfBounds
    else return copies
  else return copies

/-- The next `count` pairs of trees after crossing. -/
def crossTrees (nontrivial : Bool) (p : Float) (a b : Code Float) :
    (count start1 start2 : Nat) → Draw (Code Float × Code Float)
  | 0, _, _ => return ([], [])
  | count + 1, start1, start2 =>
    if a.length < start1 ∨ b.length < start2 then Act.fail .outOfBounds
    else do
      let stop1 := a.separatorFrom start1
      let stop2 := b.separatorFrom start2
      let (son, daughter) ← crossTree nontrivial p a b start1 stop1 start2 stop2
      let (sons, daughters) ← crossTrees nontrivial p a b count (stop1 + 1) (stop2 + 1)
      return (son ++ sons, daughter ++ daughters)

/-- Two forests after crossing their trees with probability `p`. -/
def crossed (ctx : Context Float) (p : Float) (a b : Forest Float) :
    Run (Forest Float × Forest Float) :=
  if a.outputs ≠ b.outputs then do
    Run.note (.treeCountsDiffer a.outputs b.outputs)
    return (a, b)
  else do
    let nontrivial := ctx.settings.nontrivial
    let (son, daughter) ← Run.draw (crossTrees nontrivial p a.code b.code a.outputs 0 0)
    if !nontrivial ∨ (leastOffspring < son.length ∧ leastOffspring < daughter.length) then
      return ({ a with code := son, fitness? := none }, { b with code := daughter, fitness? := none })
    else do
      Run.note (.shortOffspring (leastOffspring + 1))
      return (a, b)

end Forest

end FuzzyForest
