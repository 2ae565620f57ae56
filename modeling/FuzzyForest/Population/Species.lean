/-
Species.

A population can be bred of anything that has a fitness, can be evaluated, mutated and crossed.
-/
import FuzzyForest.Population.Sorting
import FuzzyForest.Session

namespace FuzzyForest

/-- What breeding needs to know about individuals. -/
structure Species (ι : Type) where
  /-- The fitness that was computed last. -/
  fitness : ι → Float
  /-- Computes the fitness.  The individual that is left after a failure counts, too. -/
  evaluate : Act (ι × Session) Float
  /-- An individual after mutation with a probability. -/
  mutated : Float → ι → Draw ι
  /-- Two individuals after crossing with a probability. -/
  crossed : Float → ι → ι → Run (ι × ι)
  /-- Whether two individuals count as equal. -/
  isSame : ι → ι → Bool
  /-- How individuals are sorted. -/
  sorting : Sorting ι

namespace Species

variable {ι : Type}

/-- Evaluates individuals one after the other, up to the first that fails.  No evaluation depends
on another one, so that they may as well run side by side, in any order and past a failure; this is
the schedule in which each waits for those before it. -/
def evaluateAll (sp : Species ι) : List ι → Session → Except Error Unit × List ι × Session
  | [], s => (.ok (), [], s)
  | x :: rest, s =>
    match sp.evaluate (x, s) with
    | (.error e, x, s) => (.error e, x :: rest, s)
    | (.ok _, x, s) =>
      let (r, rest, s) := sp.evaluateAll rest s
      (r, x :: rest, s)

/-- Individuals after evaluation, which may have failed. -/
def evaluated (sp : Species ι) (xs : List ι) : Run (Except Error Unit × List ι) := fun s =>
  let (outcome, ys, s) := sp.evaluateAll xs s
  (.ok (outcome, ys), s)

/-- Individuals after mutation. -/
def mutatedAll (sp : Species ι) (p : Float) : List ι → Draw (List ι)
  | [] => return []
  | x :: rest => do
    let x ← sp.mutated p x
    return x :: (← mutatedAll sp p rest)

@[simp]
theorem length_evaluateAll (sp : Species ι) (xs : List ι) (s : Session) :
    (sp.evaluateAll xs s).2.1.length = xs.length := by
  induction xs generalizing s with
  | nil => rfl
  | cons x rest ih =>
    rw [evaluateAll]
    split
    · rfl
    · simp [ih]

end Species

end FuzzyForest
