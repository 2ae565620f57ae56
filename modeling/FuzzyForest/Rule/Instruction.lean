/-
Instructions of fuzzy rules.
-/
import FuzzyForest.Rule.Opcode
import FuzzyForest.Scalar

namespace FuzzyForest

/-- One node of a rule. -/
structure Instruction (α : Type) where
  /-- What the node does. -/
  opcode : Opcode
  /-- The column or output that a terminal reads. -/
  operand : Nat
  /-- How many rows a lagged terminal looks back. -/
  lag : Nat
  /-- The threshold of the node, the part of it that evolves. -/
  weight : α
deriving DecidableEq, Repr

/-- A buffer of instructions in postfix order. -/
abbrev Code (α : Type) := List (Instruction α)

namespace Instruction

variable {α : Type}

/-- An instruction that reads nothing. -/
def plain (opcode : Opcode) (weight : α) : Instruction α := ⟨opcode, 0, 0, weight⟩

/-- A value of the current row. -/
def input (operand : Nat) (weight : α) : Instruction α := ⟨.input, operand, 0, weight⟩

/-- A value of an earlier row. -/
def pastInput (operand lag : Nat) (weight : α) : Instruction α := ⟨.pastInput, operand, lag, weight⟩

/-- An estimate for an earlier row. -/
def pastOutput (operand lag : Nat) (weight : α) : Instruction α :=
  ⟨.pastOutput, operand, lag, weight⟩

/-- The placeholder. -/
def noOp [Scalar α] : Instruction α := plain .noOp (Scalar.ofNat 0)

/-- The end of a tree. -/
def separator [Scalar α] : Instruction α := plain .separator (Scalar.ofNat 0)

/-- The number of values that the instruction consumes. -/
def arity (i : Instruction α) : Nat := i.opcode.arity

/-- Whether the instruction is a placeholder. -/
def isNoOp (i : Instruction α) : Bool := i.opcode = .noOp

/-- Whether the instruction ends a tree. -/
def isSeparator (i : Instruction α) : Bool := i.opcode = .separator

/-- Whether the instruction takes part in a rule. -/
def isLive (i : Instruction α) : Bool := !i.opcode.isSpecial

/-- Whether the instruction is an aggregate of the whole stack. -/
def isAggregate (i : Instruction α) : Bool := i.opcode = .processAll

theorem isLive_eq (i : Instruction α) : i.isLive = (!i.isNoOp && !i.isSeparator) := by
  rcases i with ⟨op, v, l, w⟩
  cases op <;> rfl

@[simp]
theorem isSeparator_separator [Scalar α] : (separator : Instruction α).isSeparator = true := rfl

@[simp]
theorem isNoOp_noOp [Scalar α] : (noOp : Instruction α).isNoOp = true := rfl

end Instruction

end FuzzyForest
