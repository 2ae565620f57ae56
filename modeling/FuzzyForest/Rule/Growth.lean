/-
Drawing instructions and trees.

A tree grows from its root: each node is a terminal with a probability that grows from level to
level, so that below `lastLevel` nothing is left to draw.  The operands of a node are grown before
the node is written, which gives postfix order.
-/
import FuzzyForest.Random.Source

namespace FuzzyForest

/-! ### Probabilities -/

namespace Growth

/-- The probability of a complement among the operators. -/
def notProbability : Float := 0.2

/-- The roll below which a terminal is a lagged input. -/
def pastInputBelow : Float := 0.25

/-- The roll below which a terminal is a lagged estimate, unless it is a lagged input. -/
def pastOutputBelow : Float := 0.5

/-- The roll of a terminal when there are no inputs. -/
def noInputRoll : Float := 0.3

/-- The probability of a terminal at the root. -/
def rootTerminal : Float := 0.2

/-- The factor by which the probability of a terminal grows from one level to the next. -/
def terminalGrowth : Float := 1.1

/-- The level at which the probability of a terminal has passed one. -/
def lastLevel : Nat := 17

/-- The probability of a terminal at a level. -/
def terminalAt : Nat → Float
  | 0 => rootTerminal
  | level + 1 => terminalAt level * terminalGrowth

theorem one_le_terminalAt_lastLevel : (1.0 : Float) ≤ terminalAt lastLevel := by decide +kernel

end Growth

open Growth

/-! ### Instructions -/

namespace Draw

/-- An index below `count`, without a draw if there is no choice. -/
def index (count : Nat) : Draw Nat := if count < 2 then pure 0 else between 0 count

/-- A lag below a horizon, at least one, without a draw if there is no choice. -/
def lag (horizon : Nat) : Draw Nat := if 1 < horizon then between 1 horizon else pure 1

/-- A terminal of some weight. -/
def terminal (s : ModelSettings) (shape : Shape) : Draw (Float → Instruction Float) := do
  let roll ← if shape.inputs = 0 then pure noInputRoll else unit
  if roll < pastInputBelow ∧ 0 < s.pastInputLimit then do
    let l ← lag s.pastInputLimit
    let n ← index shape.inputs
    return Instruction.pastInput n l
  else if roll < pastOutputBelow ∧ 0 < s.pastOutputLimit then do
    let l ← lag s.pastOutputLimit
    let n ← index shape.targets
    return Instruction.pastOutput n l
  else do
    let n ← index shape.inputs
    return Instruction.input n

/-- A binary operator of some weight. -/
def binary : Draw (Float → Instruction Float) := do
  let n ← between 0 Opcode.binary.length
  return Instruction.plain (Opcode.binary.getD n .and)

/-- The weight of a drawn instruction is drawn last. -/
def weighted (draw : Draw (Float → Instruction Float)) : Draw (Instruction Float) := do
  let node ← draw
  return node (← unit)

/-- A terminal with the given probability, otherwise an operator. -/
def instruction (s : ModelSettings) (shape : Shape) (terminalProbability : Float) :
    Draw (Instruction Float) :=
  weighted do
    if (← unit) < terminalProbability then terminal s shape
    else if (← unit) < notProbability ∧ s.allowNot then return Instruction.plain .not
    else binary

/-- An instruction of a given arity. -/
def ofArity (s : ModelSettings) (shape : Shape) (arity : Nat) : Draw (Instruction Float) :=
  weighted <| match arity with
    | 0 => terminal s shape
    | 1 => pure (Instruction.plain .not)
    | _ => binary

/-! ### Trees -/

/-- So many trees, one after the other. -/
def repeated (draw : Draw (Code Float)) : Nat → Draw (Code Float)
  | 0 => pure []
  | n + 1 => do
    let first ← draw
    let rest ← repeated draw n
    return first ++ rest

/-- A subtree with `levels` levels below its root, which is a terminal with probability `p`. -/
def subtree (s : ModelSettings) (shape : Shape) : (levels : Nat) → (p : Float) → Draw (Code Float)
  | 0, p => do
    return [← instruction s shape p]
  | levels + 1, p => do
    let node ← instruction s shape p
    let operands ← repeated (subtree s shape levels (p * terminalGrowth)) node.arity
    return operands ++ [node]

/-- A tree.  Where lone terminals are forbidden the root is an operator. -/
def tree (s : ModelSettings) (shape : Shape) : Draw (Code Float) := do
  let node ← instruction s shape (if s.nontrivial then 0.0 else rootTerminal)
  let operands ←
    repeated (subtree s shape (lastLevel - 1) (rootTerminal * terminalGrowth)) node.arity
  return operands ++ [node]

end Draw

end FuzzyForest
