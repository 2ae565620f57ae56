/-
The kinds of rule instructions.

Rules are written in postfix order: terminals push a value, operators consume the values that
stand before them.  Two kinds never touch the stack, the placeholder and the separator of trees.
-/
namespace FuzzyForest

/-- The kind of an instruction. -/
inductive Opcode
  /-- A placeholder, skipped when a rule runs. -/
  | noOp
  /-- The end of one tree of a forest. -/
  | separator
  /-- A value of the current row. -/
  | input
  /-- A value of an earlier row. -/
  | pastInput
  /-- An estimate made for an earlier row. -/
  | pastOutput
  /-- The complement. -/
  | not
  /-- An aggregate of the whole stack, counted as unary. -/
  | processAll
  /-- The smaller of two values. -/
  | and
  /-- The larger of two values. -/
  | or
  /-- The probabilistic sum of two values. -/
  | sum
  /-- The product of two values. -/
  | prod
deriving DecidableEq, Repr

namespace Opcode

/-- Every kind. -/
def all : List Opcode :=
  [noOp, separator, input, pastInput, pastOutput, not, processAll, and, or, sum, prod]

/-- The binary operators, in the order in which they are drawn. -/
def binary : List Opcode := [and, or, sum, prod]

/-- The number of values that an instruction consumes. -/
def arity : Opcode → Nat
  | noOp | separator | input | pastInput | pastOutput => 0
  | not | processAll => 1
  | and | or | sum | prod => 2

/-- The kinds that never touch the stack. -/
def isSpecial : Opcode → Bool
  | noOp | separator => true
  | _ => false

/-- The kinds that push a value that they read. -/
def isTerminal : Opcode → Bool
  | input | pastInput | pastOutput => true
  | _ => false

/-- The word by which an operator is written in a token. -/
def mnemonic? : Opcode → Option String
  | not => some "not"
  | and => some "and"
  | or => some "or"
  | sum => some "sum"
  | prod => some "prod"
  | _ => none

/-- The operator that a word stands for. -/
def ofMnemonic? (word : String) : Option Opcode :=
  all.find? fun op => op.mnemonic? = some word

/-- The name of a kind in a structured dump. -/
def name : Opcode → String
  | noOp => "no_op"
  | separator => "separator"
  | input => "input"
  | pastInput => "past_input"
  | pastOutput => "past_output"
  | not => "not"
  | processAll => "process_all"
  | and => "and"
  | or => "or"
  | sum => "sum"
  | prod => "prod"

/-- The kind with a given name. -/
def ofName? (name : String) : Option Opcode :=
  all.find? fun op => op.name = name

/-- Names are unambiguous. -/
theorem ofName?_name (op : Opcode) : ofName? op.name = some op := by
  cases op <;> rfl

/-- Mnemonics are unambiguous. -/
theorem ofMnemonic?_eq_some_iff {word : String} {op : Opcode} :
    ofMnemonic? word = some op ↔ op.mnemonic? = some word := by
  constructor
  · intro h
    simpa using List.find?_some h
  · intro h
    cases op <;> simp only [mnemonic?, Option.some.injEq, reduceCtorEq] at h <;> subst h <;> rfl

theorem arity_le_two (op : Opcode) : op.arity ≤ 2 := by
  cases op <;> decide

theorem arity_of_isTerminal {op : Opcode} (h : op.isTerminal = true) : op.arity = 0 := by
  cases op <;> simp_all [isTerminal, arity]

/-- The binary operators are the kinds that consume two values. -/
theorem mem_binary_iff {op : Opcode} : op ∈ binary ↔ op.arity = 2 := by
  cases op <;> decide

end Opcode

end FuzzyForest
