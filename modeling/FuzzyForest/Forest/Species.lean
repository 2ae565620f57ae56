/-
Forests as individuals.
-/
import FuzzyForest.Forest.Crossover
import FuzzyForest.Forest.Evaluation
import FuzzyForest.Forest.Mutation
import FuzzyForest.Population.Species

namespace FuzzyForest

namespace Forest

/-- The species of the forests of a context.  Two forests of one fitness count as equal. -/
def species (ctx : Context Float) (sorting : Sorting (Forest Float) := .insertion) :
    Species (Forest Float) where
  fitness := fitness
  evaluate := computeFitness ctx
  mutated := mutated ctx
  crossed := crossed ctx
  isSame a b := a.fitness == b.fitness
  sorting := sorting

end Forest

end FuzzyForest
