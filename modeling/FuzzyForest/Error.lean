/-
Failures.

`Error` lists the causes for which an operation of the library ends without a result, and
`Error.message` describes each.  A failure whose kind is confined to the evaluation of one
individual is passed over by a run; any other ends it.
-/
import FuzzyForest.Rule.Machine
import FuzzyForest.Rule.Token
import FuzzyForest.Settings.Basic
import FuzzyForest.Table.Basic

namespace FuzzyForest

/-- Why an operation fails. -/
inductive Error
  /-- Code does not run. -/
  | execution (cause : ExecutionError Float)
  /-- The number of trees is not that of the outputs. -/
  | treeCount (trees outputs : Nat)
  /-- A tree is not well formed. -/
  | malformedTree (index : Nat) (tree : Code Float)
  /-- The weights given are more or fewer than the live instructions. -/
  | weightCount (expected given : Nat)
  /-- An individual gives a reason of its own. -/
  | reported (report : Report)
  | token (cause : TokenError)
  /-- A structured dump is none. -/
  | badDump
  | settings (cause : SettingsError)
  /-- Values form no dataset. -/
  | dataset (cause : DatasetError)
  /-- A file is no table, or a table no dataset. -/
  | table (cause : TableError)
  /-- A position is used that is outside of its buffer. -/
  | outOfBounds
  /-- A draw meets no word that it can use. -/
  | stalled
  /-- A sort breaks off over comparisons that contradict one another. -/
  | unsortable
deriving DecidableEq, Repr

namespace Error

/-- The kinds of failures. -/
inductive Kind
  | structuralCorruption
  | operandOutOfRange
  | unsupportedInstruction
  | parse
  | evaluation
  | configuration
  | dataLoading
  | tableAccess
  | dump
  /-- The operation breaks off. -/
  | breakdown
deriving DecidableEq, Repr

/-- The kind of a reason in somebody's own words. -/
def Kind.ofReport (report : Report) : Kind :=
  match report.kind with
  | .structural => structuralCorruption
  | .evaluation => evaluation
  | .parse => parse

/-- The kind of a failure. -/
def kind : Error → Kind
  | execution (.operandOutOfRange ..) => .operandOutOfRange
  | execution (.stackUnderflow _) => .structuralCorruption
  | execution (.unsupported _) => .unsupportedInstruction
  | execution (.residualDepth ..) => .structuralCorruption
  | execution .outOfBounds => .breakdown
  | execution (.reported report) => .ofReport report
  | treeCount .. => .structuralCorruption
  | malformedTree .. => .structuralCorruption
  | weightCount .. => .evaluation
  | reported report => .ofReport report
  | token _ => .parse
  | badDump => .dump
  | settings _ => .configuration
  | dataset (.beyondWords ..) => .breakdown
  | dataset _ => .dataLoading
  | table (.missing _) => .tableAccess
  | table _ => .dataLoading
  | outOfBounds => .breakdown
  | stalled => .breakdown
  | unsortable => .breakdown

/-- Whether a failure is confined to the evaluation of one individual. -/
def isEvaluationFailure (e : Error) : Bool :=
  match e.kind with
  | .structuralCorruption | .operandOutOfRange | .unsupportedInstruction | .evaluation => true
  | _ => false

/-- How the description of a failure of a kind begins. -/
def Kind.heading : Kind → String
  | structuralCorruption => "Structural corruption: "
  | operandOutOfRange => "Operand out of range: "
  | unsupportedInstruction => "Unsupported instruction: "
  | parse => "Parse error: "
  | evaluation => "Evaluation error: "
  | configuration => "Configuration error: "
  | dataLoading => "Data loading error: "
  | tableAccess => "Polars error: "
  | dump => "Serde error: "
  | breakdown => ""

/-- What exactly has failed. -/
def detail : Error → String
  | execution (.operandOutOfRange index width) =>
    "index " ++ toString index ++ ", width " ++ toString width
  | execution (.stackUnderflow i) => "stack underflow at " ++ i.token
  | execution (.unsupported i) => i.token ++ " is not executable by the fuzzy rule model"
  | execution (.residualDepth depth row) =>
    "residual stack depth " ++ toString depth ++ " at row " ++ toString row
  | execution .outOfBounds => "index out of bounds"
  | execution (.reported report) => report.text
  | treeCount trees outputs => toString trees ++ " trees for " ++ toString outputs ++ " outputs"
  | malformedTree index tree =>
    "tree " ++ toString index ++ " is not well formed: " ++ Code.text tree
  | weightCount expected given =>
    "Expected " ++ toString expected ++ " parameters, got " ++ toString given
  | reported report => report.text
  | token cause => cause.message
  | badDump => "not a list of instructions"
  | settings cause => cause.message
  | dataset cause => cause.message
  | table cause => cause.message
  | outOfBounds => "index out of bounds"
  | stalled => "the random source is exhausted"
  | unsortable => "the comparisons do not form a total order"

/-- The description of a failure. -/
def message (e : Error) : String := e.kind.heading ++ e.detail

end Error

/-- The text of an instruction with a number of places in its weight that somebody asks for. -/
def Instruction.shown (places : Nat) (i : Instruction Float) : Except Error String :=
  if places ≤ Decimal.maxPlaces then .ok (i.tokenFixed places) else .error .outOfBounds

end FuzzyForest
