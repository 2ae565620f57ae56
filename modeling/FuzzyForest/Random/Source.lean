/-
Random draws.

A source is an endless sequence of 64-bit words and a position in it.  A draw uses up the next
words: `unit` one word for a number from zero up to one, `between` as many as it needs for a whole
number in a range, because some words would favour small numbers and are passed over.
-/
import FuzzyForest.Act

namespace FuzzyForest

/-- A sequence of random words, read from `position` on. -/
structure Source where
  words : Nat → UInt64
  /-- The number of words used. -/
  position : Nat
  /-- The number of words that a draw looks at before it gives up. -/
  patience : Nat := UInt32.size

/-- A computation that draws from a source. -/
abbrev Draw (α : Type) := Act Source α

namespace Source

/-- The source whose first words are given. -/
def ofWords (first : Array UInt64) (rest : Nat → UInt64) : Source where
  words n := if h : n < first.size then first[n] else rest (n - first.size)
  position := 0

/-- The source after one more word is used. -/
def advance (s : Source) : Source := { s with position := s.position + 1 }

end Source

namespace Draw

/-- The next word. -/
def word : Draw UInt64 := fun s => (.ok (s.words s.position), s.advance)

/-- The number from zero up to one that the first 53 bits of a word stand for. -/
def unitOf (w : UInt64) : Float := (w >>> 11).toFloat / 9007199254740992.0

/-- A number from zero up to one. -/
def unit : Draw Float := do
  return unitOf (← word)

/-- The largest fraction of a product with a word, in parts of `2 ^ 64`, that favours no number
below `range`. -/
def zone (range : Nat) : Nat := range <<< (63 - Nat.log2 range) - 1

/-- The number below `range` that a word stands for, if the word can be used. -/
def accept? (range : Nat) (w : UInt64) : Option Nat :=
  let product := w.toNat * range
  if product % UInt64.size ≤ zone range then some (product / UInt64.size) else none

/-- The number of words that a draw from the source looks at. -/
def patience : Draw Nat := fun s => (.ok s.patience, s)

/-- A number below `range`, from one of the next `fuel` words. -/
def belowWithin (range : Nat) : (fuel : Nat) → Draw Nat
  | 0 => Act.fail .stalled
  | fuel + 1 => do
    match accept? range (← word) with
    | some n => return n
    | none => belowWithin range fuel

/-- A whole number from `low` up to `high`; the range must not be empty. -/
def between (low high : Nat) : Draw Nat :=
  if low < high then do
    return low + (← belowWithin (high - low) (← patience))
  else Act.fail .outOfBounds

/-- A draw is below its range. -/
theorem lt_of_accept? {range : Nat} {w : UInt64} {n : Nat} (hr : 0 < range)
    (h : accept? range w = some n) : n < range := by
  simp only [accept?, Option.ite_none_right_eq_some, Option.some.injEq] at h
  rw [← h.2]
  exact Nat.div_lt_of_lt_mul (Nat.mul_lt_mul_of_pos_right w.toNat_lt_size hr)

end Draw

end FuzzyForest
