/-
The fuzzy threshold.

A node turns a degree of truth into another one by a curve of two straight pieces: up to the
weight of the node it rises from zero to the middle degree `(1 + weight) / 2`, above the weight it
goes on with the slope that the weight leaves.
-/
import FuzzyForest.Scalar

namespace FuzzyForest

variable {α : Type} [Scalar α]

open Scalar

/-- The threshold of `value` around `weight`. -/
def fuzzyThreshold (value weight : α) : α :=
  let p := (ofNat 1 + weight) / ofNat 2
  let q := (ofNat 1 - weight * weight) / ofNat 4
  if value < weight then p * value / weight
  else p + q * (value - weight) / (ofNat 1 - weight)

end FuzzyForest
