/-
The exact value of a floating-point number.

A finite number is a whole mantissa times a power of two.  Everything that is written or rounded
in decimal is computed from these two whole numbers, never from the number itself.
-/
namespace FuzzyForest.Decimal

/-- The magnitude `mantissa * 2 ^ exponent` of a finite floating-point number. -/
structure Binary where
  /-- The whole mantissa. -/
  mantissa : Nat
  /-- The power of two that it is multiplied by. -/
  exponent : Int
  /-- The gap to the number below is half the gap to the number above. -/
  narrowBelow : Bool
deriving DecidableEq, Repr

/-- The magnitude in the bits of a finite number. -/
def Binary.ofBits (bits : UInt64) : Binary :=
  let power := (bits >>> 52 &&& 0x7FF).toNat
  let fraction := (bits &&& 0xFFFFFFFFFFFFF).toNat
  if power = 0 then
    ⟨fraction, -1074, false⟩
  else
    ⟨1 <<< 52 + fraction, (power : Int) - 1075, fraction = 0 ∧ 1 < power⟩

/-- The magnitude as a fraction of whole numbers. -/
def Binary.fraction (x : Binary) : Nat × Nat :=
  (x.mantissa <<< x.exponent.toNat, 1 <<< (-x.exponent).toNat)

/-- The kinds of floating-point number that are written differently. -/
inductive Form
  /-- Not a number. -/
  | undefined
  /-- Beyond all numbers. -/
  | infinite (negative : Bool)
  /-- A signed magnitude. -/
  | finite (negative : Bool) (magnitude : Binary)
deriving DecidableEq, Repr

/-- The form of a number. -/
def Form.of (x : Float) : Form :=
  let bits := x.toBits
  let negative := bits >>> 63 = 1
  if x.isNaN then .undefined
  else if bits &&& 0x7FFFFFFFFFFFFFFF = 0x7FF0000000000000 then .infinite negative
  else .finite negative (.ofBits bits)

end FuzzyForest.Decimal
