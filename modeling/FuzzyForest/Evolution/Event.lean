/-
What happens in a run.

A run tells of its start, of every better winner, of its state at regular intervals and of its end.
-/
import FuzzyForest.Forest.Basic
import FuzzyForest.Population.Basic

namespace FuzzyForest

/-- Why a run ends. -/
inductive StopReason
  | generations
  | evaluations
  | targetFitness
  | timeBudget
deriving DecidableEq, Repr

/-- The words for a reason. -/
def StopReason.text : StopReason → String
  | generations => "generation limit reached"
  | evaluations => "evaluation budget exhausted"
  | targetFitness => "target fitness reached"
  | timeBudget => "time budget exhausted"

/-- What a run has come to. -/
structure Outcome (ι : Type) where
  winner : ι
  /-- The fitness of the last population. -/
  stats : PopulationStats
  /-- The number of breeding steps. -/
  generations : Nat
  evaluations : Nat
  reason : StopReason
  /-- The seconds that the run has taken. -/
  elapsed : Float
deriving Repr

/-- An event of a run. -/
inductive Event (ι : Type)
  /-- A population of some size is about to be drawn. -/
  | start (populationSize : Nat)
  /-- There is a better winner. -/
  | improvement (generation : Nat) (winner : ι)
  /-- The state after a generation. -/
  | report (generation : Nat) (stats : PopulationStats) (evaluations : Nat)
  /-- The run is over. -/
  | complete (outcome : Outcome ι)
deriving Repr

/-- The notes that tell of an event in a run of forests. -/
def Event.notes : Event (Forest Float) → List Note
  | start size => [.runStarted size]
  | improvement generation winner =>
    [.improved generation winner.fitness winner.p1 winner.p2, .bestForest winner.code]
  | report generation stats evaluations => [.progress generation evaluations stats]
  | complete outcome =>
    [.runFinished outcome.generations outcome.elapsed outcome.reason.text outcome.stats.best]

end FuzzyForest
