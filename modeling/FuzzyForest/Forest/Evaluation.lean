/-
Evaluating forests.

The trees of a forest run one after the other, each on all rows, into one buffer of estimates that
starts at zero.  A tree therefore reads the estimates of its own earlier rows and all estimates of
the trees before it.
-/
import FuzzyForest.Forest.Basic
import FuzzyForest.Session

namespace FuzzyForest

/-- What running trees has come to. -/
structure TreeRuns (α : Type) where
  /-- The estimates and the failure, if there was one. -/
  execution : Execution α
  /-- The trees that were run, the last one maybe not to its end. -/
  started : List (Code α)

/-- Runs the trees from output `outputIdx` on. -/
def runTrees {α : Type} (step : Step α) (ds : Dataset α) (outputs : Nat) :
    (trees : List (Code α)) → (outputIdx : Nat) → (estimates : Array α) → (count : Nat) →
      TreeRuns α
  | [], _, estimates, count => ⟨⟨estimates, count, none⟩, []⟩
  | tree :: rest, outputIdx, estimates, count =>
    let run := execute step tree ds estimates outputIdx outputs count
    match run.failure? with
    | some _ => ⟨run, [tree]⟩
    | none =>
      let more := runTrees step ds outputs rest (outputIdx + 1) run.estimates run.count
      { more with started := tree :: more.started }

namespace Forest

/-- What evaluating a forest has come to. -/
structure Evaluation (α : Type) where
  /-- The forest with its new estimates, and with its new rates if all went well. -/
  forest : Forest α
  /-- The number of instructions run since the start of all. -/
  count : Nat
  /-- The failure, if there was one. -/
  failure? : Option (ExecutionError α)
  /-- The trees that were run. -/
  started : List (Code α)

/-- Runs all trees and computes the error rates, `count` instructions after the start of all. -/
def evaluate {α : Type} [Scalar α] (ctx : Context α) (f : Forest α) (count : Nat) : Evaluation α :=
  let blank := Array.replicate (ctx.dataset.records * f.outputs) (Scalar.ofNat 0)
  let runs := runTrees ctx.step ctx.dataset f.outputs f.treeCodes 0 blank count
  let f := { f with estimates := runs.execution.estimates }
  match runs.execution.failure? with
  | some e => ⟨f, runs.execution.count, some e, runs.started⟩
  | none =>
    match ctx.rates ctx.dataset f.estimates f.outputs with
    | some (p1, p2) => ⟨{ f with p1, p2 }, runs.execution.count, none, runs.started⟩
    | none => ⟨f, runs.execution.count, some .outOfBounds, runs.started⟩

/-- The fitness of a forest of some length that has certain error rates. -/
def score {α : Type} [Scalar α] (scheme : FitnessScheme) (beta : α) (budget : Nat) (p1 p2 : α)
    (length : Nat) : α :=
  parsimony (scheme.combine p1 p2 beta) length budget

/-! ### In a session -/

/-- The notes on a tree that was run and may have failed. -/
def runNotes (tree : Code Float) (failure? : Option (ExecutionError Float)) : List Note :=
  .executing tree :: match failure? with
    | some (.stackUnderflow i) => [.underflow i]
    | some (.residualDepth depth _) => [.residue depth tree]
    | _ => []

/-- The notes on an evaluation. -/
def Evaluation.notes (e : Evaluation Float) : List Note :=
  match e.started.getLast? with
  | none => []
  | some last => e.started.dropLast.map Note.executing ++ runNotes last e.failure?

/-- A computation on a forest in a session. -/
abbrev Work (α : Type) := Act (Forest Float × Session) α

/-- Evaluates the forest. -/
def refresh (ctx : Context Float) : Work Unit := fun (f, s) =>
  let e := evaluate ctx f s.executed
  let s := { s with executed := e.count, journal := e.notes.reverse ++ s.journal }
  match e.failure? with
  | some cause => (.error (.execution cause), e.forest, s)
  | none => (.ok (), e.forest, s)

/-- Evaluates the forest and caches its fitness.  A forest that cannot be evaluated has none. -/
def computeFitness (ctx : Context Float) : Work Float := fun (f, s) =>
  match refresh ctx ({ f with fitness? := none }, s) with
  | (.error e, f, s) => (.error e, f, s)
  | (.ok (), f, s) =>
    let fitness := score ctx.settings.fitness ctx.settings.beta ctx.settings.maxInstructions
      f.p1 f.p2 f.code.length
    (.ok fitness, { f with fitness? := some fitness },
      { s with journal := .fitness fitness f.p1 f.p2 :: s.journal })

/-- The forest that a text stands for, checked and evaluated. -/
def query (ctx : Context Float) (text : String) : Run (Forest Float) := do
  Run.notes (parsingNotes text)
  let f := parse ctx.dataset.records text
  Act.lift f.validate
  fun s =>
    match computeFitness ctx (f, s) with
    | (.ok _, f, s) => (.ok f, s)
    | (.error e, _, s) => (.error e, s)

end Forest

end FuzzyForest
