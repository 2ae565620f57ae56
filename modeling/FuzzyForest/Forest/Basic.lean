/-
Forests of rules.

A forest is one buffer of instructions that holds a tree for every output, each closed by a
separator, together with the results of its last evaluation.  A change of the instructions drops
the cached fitness.
-/
import FuzzyForest.Act
import FuzzyForest.Journal
import FuzzyForest.Rule.Code
import FuzzyForest.Rule.Graph
import FuzzyForest.Scoring.ErrorRates
import FuzzyForest.Text.Blank

namespace FuzzyForest

/-- What all forests of a run share. -/
structure Context (α : Type) where
  dataset : Dataset α
  settings : ModelSettings
  /-- What the instructions do. -/
  step : Step α
  /-- The error rates of estimates; nothing if estimates are missing. -/
  rates : Dataset α → Array α → (outputs : Nat) → Option (α × α)

namespace Context

/-- Fuzzy rules, scored against the targets of a dataset. -/
def fuzzy {α : Type} [Scalar α] (dataset : Dataset α) (settings : ModelSettings) : Context α :=
  ⟨dataset, settings, fuzzySteps, errorRates⟩

/-- The numbers of columns that instructions may read. -/
def shape {α : Type} (ctx : Context α) : Shape := ctx.dataset.shape

/-- A description of the data and the settings. -/
def describe {α : Type} (ctx : Context α) : String :=
  let s := ctx.settings
  let fields (items : List (String × String)) : String :=
    "\x7b " ++ ", ".intercalate (items.map fun (name, text) => name ++ ": " ++ text) ++ " \x7d"
  "ForestContext " ++ fields
    [("records", toString ctx.dataset.records), ("inputs", toString ctx.dataset.inputs),
      ("targets", toString ctx.dataset.targets),
      ("config", "ModelConfig " ++ fields
        [("allow_not", toString s.allowNot), ("nontrivial", toString s.nontrivial),
          ("max_instructions", toString s.maxInstructions),
          ("past_input_limit", toString s.pastInputLimit),
          ("past_output_limit", toString s.pastOutputLimit),
          ("beta", Decimal.descriptive.write s.beta), ("fitness", s.fitness.title)])]

end Context

/-- A forest. -/
structure Forest (α : Type) where
  code : Code α
  /-- The number of trees. -/
  outputs : Nat
  /-- The estimates of the last evaluation, `outputs` values for each row. -/
  estimates : Array α
  /-- The fitness, if it was computed for these instructions. -/
  fitness? : Option α
  /-- The first error rate of the last evaluation. -/
  p1 : α
  /-- The second error rate of the last evaluation. -/
  p2 : α
deriving DecidableEq, Repr

namespace Forest

section

variable {α : Type} [Scalar α]

/-! ### Building -/

/-- Whether a buffer lacks the separator of its last tree. -/
def isUnclosed (code : Code α) : Bool := code.getLast?.any fun i => !i.isSeparator

/-- A buffer whose last tree is closed. -/
def closed (code : Code α) : Code α :=
  if isUnclosed code then code ++ [Instruction.separator] else code

/-- The forest of a buffer, for a dataset of `records` rows.  An unclosed last tree is closed. -/
def ofCode (records : Nat) (code : Code α) : Forest α :=
  let code := closed code
  let outputs := code.separators
  { code, outputs
    estimates := Array.replicate (records * outputs) (Scalar.ofNat 0)
    fitness? := none
    p1 := Scalar.ofNat 1
    p2 := Scalar.ofNat 1 }

/-! ### Reading -/

/-- The cached fitness, zero if there is none. -/
def fitness (f : Forest α) : α := f.fitness?.getD (Scalar.ofNat 0)

/-- Whether the fitness is that of the present instructions. -/
def isEvaluated (f : Forest α) : Bool := f.fitness?.isSome

/-- The ranges of the trees, without their separators. -/
def trees (f : Forest α) : List (Nat × Nat) := f.code.trees

/-- The instructions of each tree. -/
def treeCodes (f : Forest α) : List (Code α) := f.trees.map f.code.slice

/-- The number of weights. -/
def weightCount (f : Forest α) : Nat := f.code.countP Instruction.isLive

/-- The weights of the live instructions, in the order of the buffer. -/
def weights (f : Forest α) : List α := (f.code.filter Instruction.isLive).map Instruction.weight

/-! ### Changing -/

/-- The forest without placeholders. -/
def compact (f : Forest α) : Forest α := { f with code := f.code.compact, fitness? := none }

/-- A buffer whose live instructions take their weights from a list, as far as it goes. -/
def reweighted : Code α → List α → Code α
  | [], _ => []
  | i :: rest, ws =>
    if i.isLive then
      match ws with
      | [] => i :: rest
      | w :: ws => { i with weight := w } :: reweighted rest ws
    else i :: reweighted rest ws

end

/-- The forest with other weights. -/
def setWeights (f : Forest Float) (ws : List Float) : Except Error (Forest Float) :=
  if ws.length = f.weightCount then
    .ok { f with code := reweighted f.code ws, fitness? := none }
  else .error (.weightCount f.weightCount ws.length)

/-- One weight is written to a place of the buffer. -/
def writeWeight (k : Nat) (w : Float) : Act (Forest Float) Unit :=
  Act.modify fun f => { f with code := f.code.modify k fun i => { i with weight := w } }

/-- Weights are written to places of the buffer, one by one. -/
def writeWeights : List (Nat × Float) → Act (Forest Float) Unit
  | [] => pure ()
  | (k, w) :: rest => do
    writeWeight k w
    writeWeights rest

/-- New weights for the forest in place: their number is checked, each is written to the place of
its live instruction, and the cached fitness is dropped. -/
def tune (ws : List Float) : Act (Forest Float) Unit := do
  let f ← Act.get
  if ws.length = f.weightCount then do
    writeWeights ((f.code.livePlaces 0).zip ws)
    Act.modify fun f => { f with fitness? := none }
  else Act.fail (.weightCount f.weightCount ws.length)

/-! ### Checking -/

/-- The first tree that is not well formed, with its number. -/
def malformed? (trees : List (Code Float)) : Option (Nat × Code Float) :=
  (trees.zipIdx.find? fun (tree, _) => !tree.isWellFormed).map fun (tree, i) => (i, tree)

/-- Every tree is well formed, and there is one for every output. -/
def validate (f : Forest Float) : Except Error Unit :=
  if f.trees.length ≠ f.outputs then .error (.treeCount f.trees.length f.outputs)
  else match malformed? f.treeCodes with
    | some (i, tree) => .error (.malformedTree i tree)
    | none => .ok ()

/-! ### Text -/

/-- The forest that a text stands for.  A word that is no token becomes a placeholder. -/
def parse (records : Nat) (text : String) : Forest Float :=
  ofCode records ((Text.words text).map Instruction.ofTokenOrNoOp)

/-- The notes on a buffer whose last tree has to be closed. -/
def closingNotes (code : Code Float) : List Note :=
  if isUnclosed code then [.unclosedForest] else []

/-- The notes on a text that a forest is read from. -/
def parsingNotes (text : String) : List Note :=
  let words := Text.words text
  words.filterMap (fun word => (Instruction.tokenError? word).map Note.badToken)
    ++ closingNotes (words.map Instruction.ofTokenOrNoOp)

/-- The text of a forest. -/
def text (f : Forest Float) : String := f.code.text

/-- The text of a forest with a fixed number of places in every weight. -/
def textFixed (places : Nat) (f : Forest Float) : String := f.code.textFixed places

/-- The text of a forest with a number of places in every weight that somebody asks for. -/
def shown (places : Nat) (f : Forest Float) : Except Error String :=
  if places ≤ Decimal.maxPlaces then .ok (f.textFixed places) else .error .outOfBounds

/-- The drawings of the trees, one on a line. -/
def dot (f : Forest Float) : String :=
  "\n".intercalate (f.treeCodes.map fun tree => (Graph.ofCode tree).dot)

/-- The notes on the drawings. -/
def drawingNotes (f : Forest Float) : List Note :=
  f.treeCodes.flatMap fun tree => (Graph.ofCode tree).unbalanced.map Note.unbalanced

end Forest

end FuzzyForest
