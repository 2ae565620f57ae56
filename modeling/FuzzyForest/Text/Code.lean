/-
Characters by their codes.

Formats of files write characters as codes in base sixteen.  `Text.coded?` reads such a code.
-/
namespace FuzzyForest.Text

/-- The value of a digit in base sixteen. -/
def hexValue? (c : Char) : Option Nat :=
  if c.isDigit then some (c.toNat - '0'.toNat)
  else if 'a' ≤ c ∧ c ≤ 'f' then some (c.toNat - 'a'.toNat + 10)
  else if 'A' ≤ c ∧ c ≤ 'F' then some (c.toNat - 'A'.toNat + 10)
  else none

/-- The value of a digit in a base of at most sixteen. -/
def digitValue? (base : Nat) (c : Char) : Option Nat := (hexValue? c).filter fun n => n < base

/-- The number that digits spell in a base of at most sixteen, if all of them are digits of it. -/
def based? (base : Nat) (digits : List Char) : Option Nat :=
  digits.foldlM (fun n c => (digitValue? base c).map fun d => n * base + d) 0

/-- The number that the first `count` digits spell in base sixteen. -/
def hex? (count : Nat) (cs : List Char) : Option (Nat × List Char) :=
  let digits := cs.take count
  if digits.length = count then (based? 16 digits).map fun n => (n, cs.drop count) else none

/-- The character of a code, which must be one of a character. -/
def scalar? (code : Nat) : Option Char :=
  if code < 0xD800 ∨ (0xE000 ≤ code ∧ code < 0x110000) then some (Char.ofNat code) else none

/-- The character whose code the first `count` digits spell. -/
def coded? (count : Nat) (cs : List Char) : Option (Char × List Char) := do
  let (code, rest) ← hex? count cs
  return (← scalar? code, rest)

end FuzzyForest.Text
