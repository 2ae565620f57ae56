/-
Mutating an instruction in place.

One of its operand, its lag and its weight changes to another value; its kind stays.
-/
import FuzzyForest.Rule.Growth

namespace FuzzyForest

namespace Mutation

/-- The roll below which the weight changes. -/
def weightBelow : Float := 0.5

/-- The roll below which a lagged terminal changes its lag, unless its weight changes. -/
def lagBelow : Float := 0.6

/-- The number that a candidate stands for when `old` is left out of the range. -/
def skipping (old candidate : Nat) : Nat := if old ≤ candidate then candidate + 1 else candidate

/-- A weight other than `old`, among the next `fuel` weights. -/
def freshWeight (old : Float) : (fuel : Nat) → Draw Float
  | 0 => Act.fail .stalled
  | fuel + 1 => do
    let w ← Draw.unit
    if w == old then freshWeight old fuel else return w

/-- The instruction with another weight. -/
def reweigh (i : Instruction Float) : Draw (Instruction Float) := do
  return { i with weight := ← freshWeight i.weight (← Draw.patience) }

/-- Another value of the range from `low` up to `high` than `old`, put into the instruction; if the
range holds no other value the weight changes. -/
def reroll (i : Instruction Float) (old low high : Nat) (put : Nat → Instruction Float) :
    Draw (Instruction Float) :=
  if high ≤ low + 1 then reweigh i
  else do
    let candidate ← Draw.between low (high - 1)
    return put (skipping old candidate)

/-- The instruction with another operand. -/
def rerollOperand (i : Instruction Float) (count : Nat) : Draw (Instruction Float) :=
  reroll i i.operand 0 count fun n => { i with operand := n }

/-- The instruction with another lag. -/
def rerollLag (i : Instruction Float) (horizon : Nat) : Draw (Instruction Float) :=
  reroll i i.lag 1 horizon fun n => { i with lag := n }

end Mutation

open Mutation

/-- The instruction with one of its parts changed. -/
def Draw.mutated (s : ModelSettings) (shape : Shape) (i : Instruction Float) :
    Draw (Instruction Float) := do
  let roll ← Draw.unit
  if roll < weightBelow then reweigh i
  else match i.opcode with
    | .input => rerollOperand i shape.inputs
    | .pastInput =>
      if roll < lagBelow then rerollLag i s.pastInputLimit else rerollOperand i shape.inputs
    | .pastOutput =>
      if roll < lagBelow then rerollLag i s.pastOutputLimit else rerollOperand i shape.targets
    | _ => reweigh i

end FuzzyForest
