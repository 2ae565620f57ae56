/-
Postfix code: stack depth, well-formed trees, subtrees and boundaries.

`residualDepth` follows the number of values on the stack through a buffer; a tree is well formed
when exactly one value is left.  `reach` walks back from a node to the start of the subtree that
the node closes.
-/
import FuzzyForest.Rule.Instruction

namespace FuzzyForest

variable {α : Type}

namespace Code

/-! ### Stack depth -/

/-- The depth of the stack after one instruction, or nothing if the stack underflows.  An
aggregate leaves a single value. -/
def depthAfter (depth : Nat) (i : Instruction α) : Option Nat :=
  match i.opcode with
  | .noOp | .separator => some depth
  | .processAll => if depth = 0 then none else some 1
  | op => if op.arity ≤ depth then some (depth - op.arity + 1) else none

/-- The depth of the stack that a buffer leaves on a stack of `depth` values. -/
def depthFrom (depth : Nat) : Code α → Option Nat
  | [] => some depth
  | i :: rest => (depthAfter depth i).bind fun d => depthFrom d rest

/-- The depth of the stack that a buffer leaves on the empty stack. -/
def residualDepth (code : Code α) : Option Nat := depthFrom 0 code

/-- Whether a buffer is one tree: it holds no separator, never underflows and leaves one value. -/
def isWellFormed (code : Code α) : Bool :=
  !code.any Instruction.isSeparator && residualDepth code = some 1

/-- A buffer without its placeholders. -/
def compact (code : Code α) : Code α := code.filter fun i => !i.isNoOp

@[simp]
theorem depthFrom_nil (d : Nat) : depthFrom d ([] : Code α) = some d := rfl

@[simp]
theorem depthFrom_cons (d : Nat) (i : Instruction α) (rest : Code α) :
    depthFrom d (i :: rest) = (depthAfter d i).bind fun e => depthFrom e rest := rfl

/-- The depth after two buffers is the depth of the second one on what the first one leaves. -/
theorem depthFrom_append (d : Nat) (a b : Code α) :
    depthFrom d (a ++ b) = (depthFrom d a).bind fun e => depthFrom e b := by
  induction a generalizing d with
  | nil => rfl
  | cons i rest ih =>
    simp only [List.cons_append, depthFrom_cons, Option.bind_assoc]
    congr 1
    funext e
    exact ih e

theorem depthAfter_of_isNoOp {i : Instruction α} (h : i.isNoOp = true) (d : Nat) :
    depthAfter d i = some d := by
  simp only [Instruction.isNoOp, decide_eq_true_eq] at h
  simp [depthAfter, h]

/-- Placeholders do not change the depth. -/
theorem depthFrom_compact (d : Nat) (code : Code α) :
    depthFrom d (compact code) = depthFrom d code := by
  induction code generalizing d with
  | nil => rfl
  | cons i rest ih =>
    by_cases h : i.isNoOp = true
    · simp [compact, h, depthAfter_of_isNoOp h, ← ih]
    · simp [compact, h, ← ih]

/-! ### Subtrees -/

/-- The number of instructions before a node that belong to the tree of the node, counted in the
code before it, nearest first. -/
def sinceSeparator (before : Code α) : Nat :=
  (before.takeWhile fun i => !i.isSeparator).length

/-- The number of instructions that the operands of a node take up, if it needs `required` of them
and `before` is the code before it, nearest first.  Placeholders are passed over, and an aggregate
reaches back to the start of its tree. -/
def reach : (required : Nat) → (before : Code α) → Nat
  | 0, _ => 0
  | _ + 1, [] => 0
  | required + 1, i :: rest =>
    if i.isAggregate then sinceSeparator rest + 1
    else if i.isNoOp then reach (required + 1) rest + 1
    else reach (required + i.arity) rest + 1

/-- The number of instructions in front of a node that belong to its subtree. -/
def reachOf (node : Instruction α) (before : Code α) : Nat :=
  if node.isAggregate then sinceSeparator before else reach node.arity before

/-- The same where the number of operands is a word that starts again from zero. -/
def reachRound : (required : Nat) → (before : Code α) → Nat
  | 0, _ => 0
  | _ + 1, [] => 0
  | required + 1, i :: rest =>
    if i.isAggregate then sinceSeparator rest + 1
    else if i.isNoOp then reachRound (required + 1) rest + 1
    else reachRound ((required + i.arity) % UInt64.size) rest + 1

/-- The start of the subtree whose root stands at `right` and takes `arity` operands, or nothing
if the operands would have to be looked for beyond the end of the buffer. -/
def subtreeStart? (code : Code α) (right arity : Nat) : Option Nat :=
  let before := (code.take right).reverse
  if (code[right]?).any Instruction.isAggregate then some (right - sinceSeparator before)
  else if arity = 0 then some right
  else if code.length < right then none
  else if arity + code.length < UInt64.size then some (right - reach arity before)
  else some (right - reachRound arity before)

theorem sinceSeparator_le (before : Code α) : sinceSeparator before ≤ before.length :=
  (List.takeWhile_sublist _).length_le

/-- A subtree starts inside the code before its root. -/
theorem reach_le (required : Nat) (before : Code α) : reach required before ≤ before.length := by
  fun_induction reach required before with
  | case1 => simp
  | case2 => simp
  | case3 _ i rest _ => simpa using sinceSeparator_le rest
  | case4 _ i rest _ _ ih => simpa using ih
  | case5 _ i rest _ _ ih => simpa using ih

/-! ### Boundaries -/

/-- The trees of a forest, each a range of positions without its separator.  `start` is the
position at which `code` stands. -/
def treesFrom (start : Nat) (code : Code α) : List (Nat × Nat) :=
  match h : code with
  | [] => []
  | _ :: _ =>
    let tree := code.takeWhile fun i => !i.isSeparator
    (start, start + tree.length) ::
      treesFrom (start + tree.length + 1) (code.drop (tree.length + 1))
termination_by code.length
decreasing_by
  subst h
  simp only [List.length_drop, List.length_cons]
  omega

/-- The ranges of the trees of a forest. -/
def trees (code : Code α) : List (Nat × Nat) := treesFrom 0 code

/-- The instructions in a range of positions. -/
def slice (code : Code α) (range : Nat × Nat) : Code α :=
  (code.take range.2).drop range.1

/-- The position of the first separator from `start` on, or the end of the buffer. -/
def separatorFrom (code : Code α) (start : Nat) : Nat :=
  start + ((code.drop start).takeWhile fun i => !i.isSeparator).length

/-- The number of trees that are closed. -/
def separators (code : Code α) : Nat := code.countP Instruction.isSeparator

/-- The number of instructions that are no placeholders. -/
def liveCount (code : Code α) : Nat := code.countP fun i => !i.isNoOp

/-- The places of the live instructions of a buffer that begins at `start`. -/
def livePlaces (start : Nat) : Code α → List Nat
  | [] => []
  | i :: rest =>
    if i.isLive then start :: livePlaces (start + 1) rest else livePlaces (start + 1) rest

end Code

end FuzzyForest
