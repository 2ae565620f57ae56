/-
The arithmetic of truth degrees.

Rules, error rates, fitness values and selection wheels are computed in a type of scalars.  The
program runs them in binary floating point; the same definitions can be read in exact arithmetic,
where they obey the laws of an ordered field.
-/
namespace FuzzyForest

/-- The operations that rules, scores and selection wheels need of a number. -/
class Scalar (α : Type) extends Add α, Sub α, Mul α, Div α, LT α, BEq α where
  decideLT : (x y : α) → Decidable (x < y)
  /-- A natural number as a scalar. -/
  ofNat : Nat → α
  /-- The smaller of two numbers; an undefined operand gives way to the other one. -/
  least : α → α → α
  /-- The larger of two numbers; an undefined operand gives way to the other one. -/
  greatest : α → α → α
  root : α → α
  /-- The sum of no numbers, to which a sum adds its terms from left to right. -/
  emptySum : α
  /-- The result of an operation that has no value, such as zero divided by zero. -/
  isUndefined : α → Bool
  /-- A value beyond all numbers, such as one divided by zero. -/
  isUnbounded : α → Bool

namespace Scalar

instance {α : Type} [Scalar α] (x y : α) : Decidable (x < y) := decideLT x y

/-- The sum of a list, added from left to right. -/
def sum {α : Type} [Scalar α] (xs : List α) : α :=
  xs.foldl (· + ·) emptySum

/-- A last term is added last. -/
theorem sum_append_singleton {α : Type} [Scalar α] (xs : List α) (x : α) :
    sum (xs ++ [x]) = sum xs + x := by
  simp [sum]

end Scalar

/-! ### Binary floating point -/

namespace Binary64

/-- A word as a floating-point number, rounded to the nearest one. -/
def ofNat (n : Nat) : Float := n.toUInt64.toFloat

/-- The smaller operand, the first of two equal ones. -/
def least (x y : Float) : Float :=
  if x.isNaN then y else if y < x then y else x

/-- The larger operand, the first of two equal ones. -/
def greatest (x y : Float) : Float :=
  if x.isNaN then y else if x < y then y else x

/-- The zero below zero: added to any number it leaves that number as it is. -/
def emptySum : Float := -0.0

end Binary64

instance : Scalar Float where
  decideLT := Float.decLt
  ofNat := Binary64.ofNat
  least := Binary64.least
  greatest := Binary64.greatest
  root := Float.sqrt
  emptySum := Binary64.emptySum
  isUndefined := Float.isNaN
  isUnbounded := Float.isInf

end FuzzyForest
