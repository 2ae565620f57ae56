/-
Reading numbers.

`natural?` reads an unsigned word and `number?` a floating-point number from their plain texts.
-/
namespace FuzzyForest.Decimal

/-- The number that a run of digits spells. -/
def digitsValue (digits : List Char) : Nat :=
  digits.foldl (fun n c => 10 * n + (c.toNat - '0'.toNat)) 0

/-- The largest unsigned word. -/
def maxWord : Nat := UInt64.size - 1

/-- The largest signed word. -/
def maxInteger : Nat := UInt64.size / 2 - 1

/-- The largest power that a mark may be followed by, where powers are words of 32 bits. -/
def maxPower : Nat := UInt32.size / 2 - 1

/-- An unsigned word: digits after an optional plus sign. -/
def natural? (text : String) : Option Nat :=
  let digits := match text.toList with
    | '+' :: rest => rest
    | cs => cs
  if digits ≠ [] ∧ digits.all Char.isDigit then
    let n := digitsValue digits
    if n ≤ maxWord then some n else none
  else none

/-- A signed word: digits after an optional sign. -/
def integer? (text : String) : Option Int :=
  let (negative, digits) := match text.toList with
    | '+' :: rest => (false, rest)
    | '-' :: rest => (true, rest)
    | cs => (false, cs)
  if digits ≠ [] ∧ digits.all Char.isDigit then
    let n := digitsValue digits
    if negative then (if n ≤ maxInteger + 1 then some (-(n : Int)) else none)
    else (if n ≤ maxInteger then some n else none)
  else none

/-- The floating-point number nearest to `mantissa * 10 ^ exponent`.  A number of more than 400
digits before the point is beyond all numbers, and one that starts more than 400 places behind it
is zero. -/
def ofScientific (mantissa : Nat) (exponent : Int) : Float :=
  if mantissa = 0 then 0.0
  else
    let lead := exponent + ((Nat.toDigits 10 mantissa).length : Int)
    if 400 < lead then 1.0 / 0.0
    else if lead < -400 then 0.0
    else Float.ofScientific mantissa (exponent < 0) exponent.natAbs

/-- A sign in front of a number. -/
def signed (negative : Bool) (x : Float) : Float := if negative then -x else x

/-- The exponent that ends a number: nothing, or a mark with a signed run of digits. -/
def exponent? : List Char → Option Int
  | [] => some 0
  | c :: rest =>
    if c = 'e' ∨ c = 'E' then
      let (negative, digits) := match rest with
        | '+' :: digits => (false, digits)
        | '-' :: digits => (true, digits)
        | digits => (false, digits)
      if digits ≠ [] ∧ digits.all Char.isDigit then
        let n : Int := digitsValue digits
        some (if negative then -n else n)
      else none
    else none

/-- A number without its sign: digits with a point anywhere among them, or none, and an
exponent. -/
def magnitude? (cs : List Char) : Option Float :=
  let whole := cs.takeWhile Char.isDigit
  let (places, rest) := match cs.dropWhile Char.isDigit with
    | '.' :: rest => (rest.takeWhile Char.isDigit, rest.dropWhile Char.isDigit)
    | rest => ([], rest)
  if whole = [] ∧ places = [] then none
  else (exponent? rest).map fun e =>
    ofScientific (digitsValue (whole ++ places)) (e - (places.length : Int))

/-- The names of the values that are no numbers. -/
def special? (cs : List Char) : Option Float :=
  let name := String.ofList (cs.map Char.toLower)
  if name = "inf" ∨ name = "infinity" then some (1.0 / 0.0)
  else if name = "nan" then some (0.0 / 0.0)
  else none

/-- A floating-point number: an optional sign, then a number or the name of a value that is
none. -/
def number? (text : String) : Option Float :=
  let (negative, cs) := match text.toList with
    | '+' :: rest => (false, rest)
    | '-' :: rest => (true, rest)
    | cs => (false, cs)
  (special? cs <|> magnitude? cs).map (signed negative)

end FuzzyForest.Decimal
