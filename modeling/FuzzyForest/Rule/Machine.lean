/-
Running rules on a stack.

A `Model` says what one instruction does to the stack while a row of a dataset is looked at;
`runCode` runs a buffer on a stack and `execute` a tree on every row, where each row must leave
exactly one value, its estimate.  `fuzzyStep` is the fuzzy rule model: every node pushes the
threshold of what it reads or combines.
-/
import FuzzyForest.Dataset
import FuzzyForest.Rule.Instruction
import FuzzyForest.Rule.Threshold

namespace FuzzyForest

/-! ### Failures -/

/-- The class of a failure that a model or an individual of its own making reports. -/
inductive ReportKind
  | structural
  | evaluation
  | parse
deriving DecidableEq, Repr

/-- A failure in the words of a model or an individual of its own making. -/
structure Report where
  kind : ReportKind
  text : String
deriving DecidableEq, Repr

/-- Why code does not run to its end. -/
inductive ExecutionError (α : Type)
  /-- A terminal reads beyond the values that it can choose from. -/
  | operandOutOfRange (index width : Nat)
  /-- An operator finds too few values. -/
  | stackUnderflow (i : Instruction α)
  /-- The model does not know the instruction. -/
  | unsupported (i : Instruction α)
  /-- A row leaves another number of values than one. -/
  | residualDepth (depth row : Nat)
  /-- A row or an estimate is looked for where there is none. -/
  | outOfBounds
  /-- The model gives a reason of its own. -/
  | reported (report : Report)
deriving DecidableEq, Repr

/-- The stack that a failed instruction leaves behind: an underflow has used it up, any other
failure has not touched it. -/
def ExecutionError.stackLeft {α : Type} (stack : List α) : ExecutionError α → List α
  | stackUnderflow _ => []
  | _ => stack

/-! ### One instruction -/

variable {α : Type}

/-- What an instruction may read while a row is looked at. -/
structure Frame (α : Type) where
  dataset : Dataset α
  row : Nat
  /-- The estimates made so far, `outputs` values for each row. -/
  estimates : Array α
  /-- The number of trees. -/
  outputs : Nat

namespace Frame

/-- A value of a row. -/
def readRow (f : Frame α) (row operand : Nat) : Except (ExecutionError α) α :=
  if f.dataset.hasRow row then
    match f.dataset.cell? row operand with
    | some x => .ok x
    | none => .error (.operandOutOfRange operand f.dataset.columns)
  else .error .outOfBounds

/-- An estimate for a row. -/
def readEstimate (f : Frame α) (row operand : Nat) : Except (ExecutionError α) α :=
  let start := Address.of f.estimates.size (row * f.outputs)
  if start + f.outputs ≤ f.estimates.size then
    if operand < f.outputs then
      match f.estimates[start + operand]? with
      | some x => .ok x
      | none => .error .outOfBounds
    else .error (.operandOutOfRange operand f.outputs)
  else .error .outOfBounds

variable [Scalar α]

/-- The value that a terminal reads.  A lag counts only in rows with a larger number; before that
a lagged input reads the current row, and a lagged estimate is zero, or the current row if the
dataset has no inputs. -/
def read (f : Frame α) (i : Instruction α) : Except (ExecutionError α) α :=
  match i.opcode with
  | .pastInput =>
    if i.lag < f.row then f.readRow (f.row - i.lag) i.operand else f.readRow f.row i.operand
  | .pastOutput =>
    if i.lag < f.row then f.readEstimate (f.row - i.lag) i.operand
    else if f.dataset.inputs = 0 then f.readRow f.row i.operand
    else .ok (Scalar.ofNat 0)
  | _ => f.readRow f.row i.operand

end Frame

section Fuzzy

variable [Scalar α]

/-- The value of a binary operator, where `a` stood nearer to it than `b`. -/
def Opcode.combine (op : Opcode) (a b : α) : α :=
  match op with
  | .and => Scalar.least a b
  | .or => Scalar.greatest a b
  | .sum => a + b - a * b
  | _ => a * b

/-- The stack after one instruction of the fuzzy rule model. -/
def fuzzyStep (f : Frame α) (i : Instruction α) (stack : List α) :
    Except (ExecutionError α) (List α) :=
  match i.opcode with
  | .noOp | .separator => .ok stack
  | .input | .pastInput | .pastOutput =>
    match f.read i with
    | .ok x => .ok (fuzzyThreshold x i.weight :: stack)
    | .error e => .error e
  | .not =>
    match stack with
    | a :: rest => .ok (fuzzyThreshold (Scalar.ofNat 1 - a) i.weight :: rest)
    | [] => .error (.stackUnderflow i)
  | .processAll => .error (.unsupported i)
  | .and | .or | .sum | .prod =>
    match stack with
    | a :: b :: rest => .ok (fuzzyThreshold (i.opcode.combine a b) i.weight :: rest)
    | _ => .error (.stackUnderflow i)

end Fuzzy

/-! ### Running code -/

/-- What one instruction does.  The first argument counts the instructions run before, so that a
model may change its mind over time. -/
abbrev Step (α : Type) :=
  Nat → Frame α → Instruction α → List α → Except (ExecutionError α) (List α)

/-- The steps of the fuzzy rule model. -/
def fuzzySteps [Scalar α] : Step α := fun _ => fuzzyStep

/-- The steps of a model that gives up after `limit` instructions. -/
def Step.failingAfter (limit : Nat) (report : Report) (step : Step α) : Step α :=
  fun count f i stack =>
    if count < limit then step count f i stack else .error (.reported report)

/-- Runs a buffer on a stack, `count` instructions after the start of all.  The new count includes
an instruction that fails. -/
def runCode (step : Step α) (f : Frame α) :
    (count : Nat) → Code α → List α → Except (ExecutionError α) (List α) × Nat
  | count, [], stack => (.ok stack, count)
  | count, i :: rest, stack =>
    match step count f i stack with
    | .ok stack => runCode step f (count + 1) rest stack
    | .error e => (.error e, count + 1)

/-- What running a tree on the rows of a dataset has come to. -/
structure Execution (α : Type) where
  /-- The estimates; those of the rows before a failure are written. -/
  estimates : Array α
  /-- The number of instructions run since the start of all. -/
  count : Nat
  /-- The failure that ended the run early, if there was one. -/
  failure? : Option (ExecutionError α)
deriving DecidableEq, Repr

/-- Runs a tree on the next `remaining` rows from `row` on. -/
def executeRows (step : Step α) (code : Code α) (ds : Dataset α) (outputIdx outputs : Nat) :
    (remaining row : Nat) → (estimates : Array α) → (count : Nat) → Execution α
  | 0, _, estimates, count => ⟨estimates, count, none⟩
  | remaining + 1, row, estimates, count =>
    match runCode step ⟨ds, row, estimates, outputs⟩ count code [] with
    | (.ok [x], count) =>
      let place := Address.of estimates.size (row * outputs + outputIdx)
      if place < estimates.size then
        executeRows step code ds outputIdx outputs remaining (row + 1)
          (estimates.setIfInBounds place x) count
      else ⟨estimates, count, some .outOfBounds⟩
    | (.ok stack, count) => ⟨estimates, count, some (.residualDepth stack.length row)⟩
    | (.error e, count) => ⟨estimates, count, some e⟩

/-- Runs a tree on every row and writes its estimates into the places of output `outputIdx`. -/
def execute (step : Step α) (code : Code α) (ds : Dataset α) (estimates : Array α)
    (outputIdx outputs count : Nat) : Execution α :=
  executeRows step code ds outputIdx outputs ds.records 0 estimates count

end FuzzyForest
