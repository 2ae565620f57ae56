/-
Selection wheels.

A wheel has a sector for each individual, as wide as its fitness when a large fitness is better,
and as the largest fitness divided by its own when a small one is.  A spin stops in a sector.
Where some weights are beyond all numbers, these share the wheel evenly; where there is no width at
all, or the widths have no sum, all sectors do.
-/
import FuzzyForest.Direction
import FuzzyForest.Random.Source

namespace FuzzyForest

namespace Wheel

section

variable {α : Type} [Scalar α]

/-- The largest of a list of numbers, beginning with `x`. -/
def largest (x : α) (xs : List α) : α := xs.foldl Scalar.greatest x

/-- The width of a sector that shrinks as its fitness grows to the largest one. -/
def share (largest fitness : α) : α :=
  let width := largest / fitness
  if Scalar.isUndefined width || decide (width < Scalar.ofNat 0) then Scalar.ofNat 0 else width

/-- The widths of the sectors. -/
def weights (d : Direction) (fitness : List α) : List α :=
  match d, fitness with
  | _, [] => []
  | .maximize, fitness => fitness.map fun x => Scalar.greatest x (Scalar.ofNat 0)
  | .minimize, x :: rest => (x :: rest).map (share (largest x rest))

/-- The sectors that are wider than any number. -/
def unbounded (weights : List α) : List Nat :=
  (List.range weights.length).filter fun i => weights[i]?.any Scalar.isUnbounded

/-- The sectors that share the wheel evenly, or nothing if widths decide. -/
def even? (weights : List α) : Option (List Nat) :=
  match unbounded weights with
  | i :: rest => some (i :: rest)
  | [] =>
    let total := Scalar.sum weights
    if Scalar.ofNat 0 < total ∧ !Scalar.isUnbounded total then none
    else some (List.range weights.length)

/-- The first sector whose end lies beyond a place on the rim. -/
def sectorAt? (place : α) : (weights : List α) → Option Nat
  | [] => none
  | w :: rest =>
    let place := place - w
    if place < Scalar.ofNat 0 then some 0 else (sectorAt? place rest).map (· + 1)

/-- The sector in which a spin by the part `u` of a full turn stops.  A spin that rounding takes
beyond the end stops in the last one. -/
def stop (weights : List α) (u : α) : Nat :=
  (sectorAt? (u * Scalar.sum weights) weights).getD (weights.length - 1)

theorem sectorAt?_lt {place : α} {weights : List α} {i : Nat} (h : sectorAt? place weights = some i) :
    i < weights.length := by
  induction weights generalizing place i with
  | nil => simp [sectorAt?] at h
  | cons w rest ih =>
    rw [sectorAt?] at h
    split at h
    · cases h
      simp
    · obtain ⟨j, hj, rfl⟩ := Option.map_eq_some_iff.mp h
      simpa using ih hj

/-- A spin stops in a sector of the wheel. -/
theorem stop_lt {weights : List α} (u : α) (h : weights ≠ []) : stop weights u < weights.length := by
  have hpos : 0 < weights.length := List.length_pos_iff.mpr h
  rw [stop]
  cases hs : sectorAt? (u * Scalar.sum weights) weights with
  | none => rw [Option.getD_none]; omega
  | some i => exact sectorAt?_lt hs

@[simp]
theorem length_weights (d : Direction) (fitness : List α) :
    (weights d fitness).length = fitness.length := by
  cases d <;> cases fitness <;> simp [weights]

end

/-- The sector that a random spin chooses. -/
def spin (weights : List Float) : Draw Nat :=
  match even? weights with
  | some sectors => do
    match sectors[← Draw.between 0 sectors.length]? with
    | some i => return i
    | none => Act.fail .outOfBounds
  | none => do
    return stop weights (← Draw.unit)

end Wheel

end FuzzyForest
