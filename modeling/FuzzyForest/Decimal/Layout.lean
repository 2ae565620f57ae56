/-
How a floating-point number is written.

A `Layout` holds the decisions that differ between the texts of this library: where positional
notation ends, whether a whole number shows a point, how exponents, infinities and undefined
values are spelled.  `Layout.write` is the one printer that follows them; `fixed` writes a given
number of decimal places.
-/
import FuzzyForest.Decimal.Shortest

namespace FuzzyForest.Decimal

/-- The decisions of a number format. -/
structure Layout where
  /-- The exponents of the leading digit, from the first one on and below the second one, for
  which the number is written without an exponent; `none` means all. -/
  positional : Option (Int × Int)
  /-- A whole number ends in a point and a zero. -/
  wholePoint : Bool
  /-- A positive exponent carries its sign. -/
  exponentPlus : Bool
  /-- Where a number between two decimals of the same length goes. -/
  tie : Tie
  /-- The text of an undefined value. -/
  undefined : String
  /-- The text of a value beyond all numbers. -/
  infinite : String

/-- The digits of a natural number in base ten. -/
def digitsOf (n : Nat) : List Char := Nat.toDigits 10 n

/-- So many zeros. -/
def zeros (n : Nat) : List Char := List.replicate n '0'

/-- A decimal without an exponent. -/
def positionalText (wholePoint : Bool) (d : Dec) : List Char :=
  let digits := digitsOf d.digits
  if 0 ≤ d.exponent then
    digits ++ zeros d.exponent.toNat ++ (if wholePoint then ['.', '0'] else [])
  else
    let places := (-d.exponent).toNat
    if places < digits.length then
      digits.take (digits.length - places) ++ '.' :: digits.drop (digits.length - places)
    else
      '0' :: '.' :: zeros (places - digits.length) ++ digits

/-- A decimal with an exponent, one digit before the point. -/
def exponentText (plus : Bool) (d : Dec) : List Char :=
  let digits := digitsOf d.digits
  let power := d.exponent + (digits.length : Int) - 1
  let mantissa := match digits with
    | [] => []
    | [c] => [c]
    | c :: rest => c :: '.' :: rest
  let sign := if power < 0 then ['-'] else if plus then ['+'] else []
  mantissa ++ 'e' :: sign ++ digitsOf power.natAbs

/-- The exponent of the leading digit. -/
def Dec.leading (d : Dec) : Int :=
  d.exponent + ((digitsOf d.digits).length : Int) - 1

/-- The text of a number in a layout. -/
def Layout.write (l : Layout) (x : Float) : String :=
  let sign (negative : Bool) := if negative then "-" else ""
  match Form.of x with
  | .undefined => l.undefined
  | .infinite negative => sign negative ++ l.infinite
  | .finite negative magnitude =>
    let d := shortest l.tie magnitude
    let plain := match l.positional with
      | none => true
      | some (low, high) => d.digits = 0 ∨ (low ≤ d.leading ∧ d.leading < high)
    let text :=
      if plain then positionalText l.wholePoint d else exponentText l.exponentPlus d
    sign negative ++ String.ofList text

/-- The plain text of a number: never an exponent, and no point in a whole number. -/
def plain : Layout where
  positional := none
  wholePoint := false
  exponentPlus := false
  tie := .awayFromZero
  undefined := "NaN"
  infinite := "inf"

/-- The text of a number in a description of settings: whole numbers show a point, and very large
or very small ones an exponent. -/
def descriptive : Layout where
  positional := some (-4, 16)
  wholePoint := true
  exponentPlus := false
  tie := .awayFromZero
  undefined := "NaN"
  infinite := "inf"

/-! ### A fixed number of places -/

/-- The largest number of places that can be asked for. -/
def maxPlaces : Nat := UInt16.size - 1

/-- The quotient of two natural numbers, rounded to the nearest one; a half goes to the even
neighbour. -/
def roundedQuotient (num den : Nat) : Nat :=
  let q := num / den
  let twice := 2 * (num % den)
  if twice < den then q
  else if den < twice then q + 1
  else if q % 2 = 0 then q else q + 1

/-- The exact value of a magnitude, rounded to so many decimal places. -/
def fixedText (places : Nat) (x : Binary) : List Char :=
  let (num, den) := x.fraction
  let digits := digitsOf (roundedQuotient (num * Nat.pow 10 places) den)
  let padded := zeros (places + 1 - digits.length) ++ digits
  let whole := padded.take (padded.length - places)
  if places = 0 then whole else whole ++ '.' :: padded.drop (padded.length - places)

/-- The text of a number with so many decimal places. -/
def fixed (places : Nat) (x : Float) : String :=
  match Form.of x with
  | .undefined => plain.undefined
  | .infinite negative => (if negative then "-" else "") ++ plain.infinite
  | .finite negative magnitude =>
    (if negative then "-" else "") ++ String.ofList (fixedText places magnitude)

end FuzzyForest.Decimal
