/-
Words in TOML.

Numbers, truth values and moments are words of letters, digits, signs, points and colons.
Underscores may separate the digits of a number.
-/
import FuzzyForest.Settings.Datum
import FuzzyForest.Toml.Moment

namespace FuzzyForest.Toml

/-! ### Digits -/

/-- Digits that may be separated by single underscores; `digit` says which there are. -/
def ungrouped? (digit : Char → Bool) : List Char → Option (List Char)
  | [] => none
  | [c] => if digit c then some [c] else none
  | c :: '_' :: rest => if digit c then (ungrouped? digit rest).map (c :: ·) else none
  | c :: rest => if digit c then (ungrouped? digit rest).map (c :: ·) else none

/-- Digits in base ten. -/
def digits? (cs : List Char) : Option (List Char) := ungrouped? Char.isDigit cs

/-- Digits in base ten of which the first is zero only if it is alone. -/
def whole? (cs : List Char) : Option (List Char) := do
  let digits ← digits? cs
  if digits.head? = some '0' ∧ digits ≠ ['0'] then none else some digits

/-- The sign in front of a number, and the number. -/
def sign : List Char → Bool × List Char
  | '+' :: cs => (false, cs)
  | '-' :: cs => (true, cs)
  | cs => (false, cs)

/-! ### Whole numbers -/

/-- A whole number that is a signed word. -/
def word? (n : Int) : Option Datum :=
  if -(Decimal.maxInteger : Int) - 1 ≤ n ∧ n ≤ Decimal.maxInteger then some (.integer n) else none

/-- The letters that stand for bases. -/
def bases : List (Char × Nat) := [('x', 16), ('o', 8), ('b', 2)]

/-- A whole number in a base other than ten. -/
def based? : List Char → Option Datum
  | '0' :: letter :: cs => do
    let base ← bases.lookup letter
    let digits ← ungrouped? (fun c => (Text.digitValue? base c).isSome) cs
    word? ((← Text.based? base digits) : Nat)
  | _ => none

/-- A whole number in base ten. -/
def integer? (cs : List Char) : Option Datum := do
  let (negative, cs) := sign cs
  let n : Int := Decimal.digitsValue (← whole? cs)
  word? (if negative then -n else n)

/-! ### Other numbers -/

/-- The exponent that ends a number; nothing in front of the mark counts as exponent zero. -/
def exponent? : List Char → Option Int
  | [] => some 0
  | c :: cs => do
    if c = 'e' ∨ c = 'E' then
      let (negative, cs) := sign cs
      let n : Int := Decimal.digitsValue (← digits? cs)
      return if negative then -n else n
    else none

/-- Whether a character may belong to the digits of a number. -/
def isDigitChar (c : Char) : Bool := c.isDigit ∨ c = '_'

/-- The digits behind a point and what follows them, where something must follow a whole part. -/
def places? : List Char → Option (List Char × List Char)
  | '.' :: rest => do
    return (← digits? (rest.takeWhile isDigitChar), rest.dropWhile isDigitChar)
  | [] => none
  | rest => some ([], rest)

/-- A number with a point, an exponent or both.  It must not be beyond all numbers, except for a
negative one in some editions. -/
def float? (e : Edition) (cs : List Char) : Option Datum := do
  let (negative, cs) := sign cs
  let whole ← whole? (cs.takeWhile isDigitChar)
  let (places, power) ← places? (cs.dropWhile isDigitChar)
  let exponent := (← exponent? power) - (places.length : Int)
  let x := Decimal.ofScientific (Decimal.digitsValue (whole ++ places)) exponent
  if x.isInf ∧ !(negative ∧ e.negativeInfinities) then none
  else return .number (Decimal.signed negative x)

/-- The name of a value that is no number. -/
def special? (cs : List Char) : Option Datum :=
  let (negative, name) := sign cs
  if name = ['i', 'n', 'f'] then some (.number (Decimal.signed negative (1.0 / 0.0)))
  else if name = ['n', 'a', 'n'] then some (.number (Decimal.signed negative (0.0 / 0.0)))
  else none

/-- A truth value. -/
def truth? (cs : List Char) : Option Datum :=
  if cs = ['t', 'r', 'u', 'e'] then some (.boolean true)
  else if cs = ['f', 'a', 'l', 's', 'e'] then some (.boolean false)
  else none

/-! ### Words -/

/-- Whether a character may belong to a word. -/
def isWordChar (c : Char) : Bool := c.isAlphanum ∨ c = '_' ∨ c = '-' ∨ c = '+' ∨ c = '.' ∨ c = ':'

/-- The first word.  A space between a date and a time belongs to it. -/
def firstWord (cs : List Char) : List Char × List Char :=
  let word := cs.takeWhile isWordChar
  match cs.dropWhile isWordChar with
  | ' ' :: rest =>
    let time := rest.takeWhile isWordChar
    if (Date.read? word).any (fun (_, rest) => rest = []) ∧ (time.head?.any Char.isDigit) then
      (word ++ ' ' :: time, rest.dropWhile isWordChar)
    else (word, ' ' :: rest)
  | rest => (word, rest)

/-- The value that a word stands for. -/
def ofWord? (e : Edition) (word : List Char) : Option Datum :=
  truth? word <|> special? word <|> based? word <|> integer? word <|> float? e word
    <|> (Moment.read? e word).map fun m => .moment m.written

end FuzzyForest.Toml
