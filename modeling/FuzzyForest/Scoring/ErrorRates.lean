/-
Error rates of estimates.

For each target the overlap of estimates and target values is compared with what was estimated
(precision) and with what was to be found (recall).  The rates are one minus the means of both over
the targets; a row that is left out does not count.
-/
import FuzzyForest.Dataset

namespace FuzzyForest

variable {α : Type} [Scalar α]

open Scalar

/-- The estimates of output `t` for the rows that count, each with the target value; nothing if an
estimate is missing. -/
def scoredPairs (ds : Dataset α) (estimates : Array α) (outputs t : Nat) : Option (List (α × α)) :=
  ds.counted.mapM fun row =>
    (estimates[Address.of estimates.size (row * outputs + t)]?).map fun estimate =>
      (estimate, ds.target row t)

/-- The overlap of estimates with target values. -/
def overlap (pairs : List (α × α)) : α :=
  pairs.foldl (fun s (estimate, target) => s + least estimate target) (ofNat 0)

/-- The sum of the estimates. -/
def estimated (pairs : List (α × α)) : α :=
  pairs.foldl (fun s (estimate, _) => s + estimate) (ofNat 0)

/-- The share of `part` in `whole`, zero if there is no whole. -/
def share (part whole : α) : α := if ofNat 0 < whole then part / whole else ofNat 0

/-- Precision and recall of one target. -/
def targetRates (ds : Dataset α) (estimates : Array α) (outputs t : Nat) : Option (α × α) :=
  (scoredPairs ds estimates outputs t).map fun pairs =>
    (share (overlap pairs) (estimated pairs), share (overlap pairs) (ds.sigma t))

/-- The two error rates, one minus mean precision and one minus mean recall; nothing if an estimate
is missing. -/
def errorRates (ds : Dataset α) (estimates : Array α) (outputs : Nat) : Option (α × α) :=
  let targets := min outputs ds.targets
  if targets = 0 then some (ofNat 1, ofNat 1)
  else do
    let rates ← (List.range targets).mapM fun t => targetRates ds estimates outputs t
    let precision := rates.foldl (fun s rate => s + rate.1) (ofNat 0) / ofNat targets
    let coverage := rates.foldl (fun s rate => s + rate.2) (ofNat 0) / ofNat targets
    return (ofNat 1 - precision, ofNat 1 - coverage)

end FuzzyForest
