/-
Whether a larger or a smaller fitness is better.
-/
import FuzzyForest.Scalar

namespace FuzzyForest

/-- The goal of a run. -/
inductive Direction
  /-- A larger fitness is better. -/
  | maximize
  /-- A smaller fitness is better. -/
  | minimize
deriving DecidableEq, Repr

namespace Direction

/-- Every goal. -/
def all : List Direction := [maximize, minimize]

variable {α : Type} [Scalar α]

/-- Whether `a` is strictly better than `b`.  An undefined number is neither better nor worse than
any other. -/
def isBetter : Direction → α → α → Bool
  | maximize, a, b => decide (b < a)
  | minimize, a, b => decide (a < b)

/-- The order that puts the better number first; numbers of which neither is better count as
equal. -/
def compare (d : Direction) (a b : α) : Ordering :=
  if d.isBetter a b then .lt else if d.isBetter b a then .gt else .eq

/-- The other goal. -/
def reversed : Direction → Direction
  | maximize => minimize
  | minimize => maximize

/-- The name by which a goal is written. -/
def name : Direction → String
  | maximize => "maximize"
  | minimize => "minimize"

end Direction

end FuzzyForest
