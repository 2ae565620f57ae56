/-
Fitness from error rates.

A scheme folds two error rates into one number that is larger for smaller errors, and `parsimony`
lowers the fitness of a forest that has outgrown its budget of instructions.
-/
import FuzzyForest.Scalar

namespace FuzzyForest

/-- How two error rates make one fitness. -/
inductive FitnessScheme
  /-- The F-measure of precision and recall. -/
  | fScore
  /-- One minus the weighted mean. -/
  | weightedAverage
  /-- One minus the distance from the ideal point, the second rate counted twentyfold. -/
  | penalizedEuclidean
deriving DecidableEq, Repr

namespace FitnessScheme

/-- Every scheme. -/
def all : List FitnessScheme := [fScore, weightedAverage, penalizedEuclidean]

/-- The name of a scheme in settings. -/
def name : FitnessScheme → String
  | fScore => "f_score"
  | weightedAverage => "weighted_average"
  | penalizedEuclidean => "penalized_euclidean"

/-- The name of a scheme in a description of settings. -/
def title : FitnessScheme → String
  | fScore => "FScore"
  | weightedAverage => "WeightedAverage"
  | penalizedEuclidean => "PenalizedEuclidean"

variable {α : Type} [Scalar α]

/-- The fitness of two error rates, weighted by `beta`. -/
def combine (scheme : FitnessScheme) (p1 p2 beta : α) : α :=
  match scheme with
  | fScore =>
    let precision := Scalar.ofNat 1 - p1
    let coverage := Scalar.ofNat 1 - p2
    if precision + coverage == Scalar.ofNat 0 then Scalar.ofNat 0
    else
      let square := beta * beta
      let denominator := square * precision + coverage
      if denominator == Scalar.ofNat 0 then Scalar.ofNat 0
      else (Scalar.ofNat 1 + square) * precision * coverage / denominator
  | weightedAverage => Scalar.ofNat 1 - (beta * p1 + p2) / (beta + Scalar.ofNat 1)
  | penalizedEuclidean =>
    let scaled := Scalar.ofNat 20 * p2
    Scalar.greatest (Scalar.ofNat 1 - Scalar.root (scaled * scaled + p1 * p1)) (Scalar.ofNat 0)

end FitnessScheme

variable {α : Type} [Scalar α]

/-- The fitness of a forest of `length` instructions, divided by the share of the budget that it
uses if that is more than all of it.  A budget of zero never applies. -/
def parsimony (fitness : α) (length budget : Nat) : α :=
  if 0 < budget ∧ budget < length then fitness / (Scalar.ofNat length / Scalar.ofNat budget)
  else fitness

end FuzzyForest
