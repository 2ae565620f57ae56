/-
Plans for runs of forests.
-/
import FuzzyForest.Evolution.Run
import FuzzyForest.Forest.Species
import FuzzyForest.Random.ChaCha

namespace FuzzyForest

namespace Evolution

/-- The plan of a run that breeds forests in a context. -/
def Plan.forests (ctx : Context Float) (rules : EvolutionSettings)
    (notes : Event (Forest Float) → List Note) (sorting : Sorting (Forest Float) := .insertion) :
    Plan (Forest Float) where
  species := Forest.species ctx sorting
  newborn := Forest.random ctx
  rules := rules
  notes := notes

/-- The session of a run with a seed. -/
def session (seed : Nat) : Session :=
  { source := { words := ChaCha.words seed.toUInt64, position := 0 } }

end Evolution

end FuzzyForest
