/-
Probes.

A probe is an individual that is nothing but a number, which is its fitness once it is evaluated.
A broken one cannot be evaluated.  Probes show what breeding does apart from what it breeds.
-/
import FuzzyForest.Population.Species

namespace FuzzyForest

/-- A number as an individual. -/
structure Probe where
  value : Float
  /-- The fitness, if it was computed. -/
  fitness? : Option Float
  /-- The probe cannot be evaluated. -/
  broken : Bool
deriving DecidableEq, Repr

namespace Probe

/-- A probe whose fitness is its number. -/
def ofValue (value : Float) (broken : Bool) : Probe := ⟨value, some value, broken⟩

/-- The cached fitness, zero if there is none. -/
def fitness (x : Probe) : Float := x.fitness?.getD 0.0

/-- Another number, not evaluated yet. -/
def withValue (x : Probe) (value : Float) : Probe := { x with value, fitness? := none }

/-- The species of probes.  A mutation draws another number, a crossing takes the mean of both. -/
def species : Species Probe where
  fitness := fitness
  evaluate := fun (x, s) =>
    if x.broken then (.error (.reported ⟨.evaluation, "broken probe"⟩), x, s)
    else (.ok x.value, { x with fitness? := some x.value }, s)
  mutated p x := do
    if (← Draw.unit) < p then return x.withValue (← Draw.unit) else return x
  crossed _ a b :=
    let mean := (a.value + b.value) / 2.0
    pure (a.withValue mean, b.withValue mean)
  isSame a b := a.fitness == b.fitness
  sorting := .insertion

end Probe

end FuzzyForest
