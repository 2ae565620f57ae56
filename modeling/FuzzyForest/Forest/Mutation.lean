/-
Mutating forests.

One pass goes through the buffer from left to right.  Each live instruction is changed with a
given probability: in place, by a complement put behind it, by another instruction of its arity, or
by a random tree in place of its subtree.  What a change has put into the buffer is not looked at
again in the same pass.
-/
import FuzzyForest.Forest.Basic
import FuzzyForest.Rule.Mutation

namespace FuzzyForest

namespace Forest

/-- The roll below which an instruction changes in place. -/
def inPlaceBelow : Float := 0.5

/-- The roll below which a complement is put behind an instruction, unless that changes in
place. -/
def insertionBelow : Float := 0.6

/-- The probability of another instruction of the same arity rather than another subtree. -/
def pointChange : Float := 0.8

/-- The number of live instructions that a tree must exceed before one of its unary nodes may be
dropped, where lone terminals are forbidden. -/
def leastForDeletion : Nat := 3

/-- The number of live instructions of the tree around a position, where `before` is the code
before the position, nearest first, and `from` the code from there on. -/
def liveAround (before rest : Code Float) : Nat :=
  let inTree (code : Code Float) := code.takeWhile fun i => !i.isSeparator
  (inTree before).countP Instruction.isLive + (inTree rest).countP Instruction.isLive

/-- An instruction of the same arity, or a placeholder for a unary node that can be spared. -/
def changed (s : ModelSettings) (shape : Shape) (before : Code Float) (i : Instruction Float)
    (rest : Code Float) : Draw (Instruction Float) :=
  if i.isAggregate then Draw.mutated s shape i
  else if i.arity = 1 ∧ (leastForDeletion < liveAround before (i :: rest) ∨ !s.nontrivial) then
    pure Instruction.noOp
  else Draw.ofArity s shape i.arity

/-- One pass over `rest`, where `before` is the code that is done, the last instruction first. -/
def mutatePass (s : ModelSettings) (shape : Shape) (p : Float) :
    (before rest : Code Float) → Draw (Code Float)
  | before, [] => return before.reverse
  | before, i :: rest =>
    if !i.isLive then mutatePass s shape p (i :: before) rest
    else do
      if p ≤ (← Draw.unit) then mutatePass s shape p (i :: before) rest
      else
        let roll ← Draw.unit
        if roll < inPlaceBelow then do
          let j ← Draw.mutated s shape i
          mutatePass s shape p (j :: before) rest
        else if roll < insertionBelow ∧ s.allowNot then do
          let unary ← Draw.ofArity s shape 1
          match rest with
          | [] => mutatePass s shape p (unary :: i :: before) []
          | next :: rest =>
            if next.isNoOp then mutatePass s shape p (unary :: i :: before) rest
            else mutatePass s shape p (unary :: i :: before) (next :: rest)
        else if (← Draw.unit) < pointChange then do
          let j ← changed s shape before i rest
          mutatePass s shape p (j :: before) rest
        else do
          let tree ← Draw.tree s shape
          mutatePass s shape p (tree.reverse ++ before.drop (Code.reachOf i before)) rest

/-- The forest after one pass with probability `p`. -/
def mutated (ctx : Context Float) (p : Float) (f : Forest Float) : Draw (Forest Float) := do
  let code ← mutatePass ctx.settings ctx.shape p [] f.code
  return { f with code, fitness? := none }

/-- A forest with one random tree for each target. -/
def random (ctx : Context Float) : Draw (Forest Float) := do
  let tree : Draw (Code Float) := do
    return (← Draw.tree ctx.settings ctx.shape) ++ [Instruction.separator]
  return ofCode ctx.dataset.records (← Draw.repeated tree ctx.dataset.targets)

end Forest

end FuzzyForest
