/-
The shortest decimal of a floating-point number.

A number stands for all reals that are rounded to it.  Among them `shortest` takes a decimal with
the fewest digits, and of two such decimals the nearer one.  The search tries the grids of
1, 2, ... 17 significant digits in turn and looks at the two neighbours of the number on each; the
arithmetic is exact throughout.
-/
import FuzzyForest.Decimal.Binary

namespace FuzzyForest.Decimal

/-- The decimal `digits * 10 ^ exponent`. -/
structure Dec where
  /-- The significant digits, as one number. -/
  digits : Nat
  /-- The power of ten that they are multiplied by. -/
  exponent : Int
deriving DecidableEq, Repr

/-- Which neighbour a number exactly between two of them goes to. -/
inductive Tie
  /-- The neighbour with an even last digit. -/
  | toEven
  /-- The neighbour farther from zero. -/
  | awayFromZero
deriving DecidableEq, Repr

/-- The largest number of significant digits that is ever needed. -/
def maxDigits : Nat := 17

/-- The interval of reals that are rounded to a number, on a scale on which the last of
`maxDigits` significant digits counts `unit`. -/
structure Interval where
  value : Nat
  low : Nat
  high : Nat
  /-- Whether the ends belong to the interval. -/
  closed : Bool
  /-- The weight of the last digit. -/
  unit : Nat
  /-- The power of ten of the last digit. -/
  exponent : Int
deriving DecidableEq, Repr

namespace Interval

/-- Whether a point of the scale is rounded to the number. -/
def contains (i : Interval) (point : Nat) : Bool :=
  if i.closed then decide (i.low ≤ point ∧ point ≤ i.high)
  else decide (i.low < point ∧ point < i.high)

/-- The least power of ten, from `k` on, that exceeds `num / den`. -/
def leadingPower (num den : Nat) : Nat → Int → Int
  | 0, k => k
  | fuel + 1, k =>
    if num * Nat.pow 10 (-k).toNat < den * Nat.pow 10 k.toNat then k else leadingPower num den fuel (k + 1)

/-- The interval of a positive magnitude. -/
def of (x : Binary) : Interval :=
  let (num, den) := x.fraction
  let step := 1 <<< x.exponent.toNat
  let estimate := ((Nat.log2 num : Int) - (Nat.log2 den : Int) - 1) * 30103 / 100000
  let lead := leadingPower num den 4 estimate
  let last := lead - maxDigits
  let scale := 4 * Nat.pow 10 (-last).toNat
  { value := num * scale
    low := (if x.narrowBelow then 4 * num - step else 4 * num - 2 * step) * Nat.pow 10 (-last).toNat
    high := (4 * num + 2 * step) * Nat.pow 10 (-last).toNat
    closed := x.mantissa % 2 = 0
    unit := 4 * den * Nat.pow 10 last.toNat
    exponent := last }

/-- The decimal of `n` significant digits in the interval that is nearest to the number, if the
interval holds any. -/
def nearest? (i : Interval) (tie : Tie) (n : Nat) : Option Dec :=
  let dropped := maxDigits - n
  let grid := i.unit * Nat.pow 10 dropped
  let below := i.value / grid
  let rest := i.value % grid
  let lower := i.contains (below * grid)
  let upper := i.contains ((below + 1) * grid)
  let roundUp : Bool :=
    if 2 * rest = grid then
      match tie with
      | .toEven => below % 2 == 1
      | .awayFromZero => true
    else decide (grid < 2 * rest)
  let found (digits : Nat) : Option Dec := some ⟨digits, i.exponent + dropped⟩
  match lower, upper with
  | false, false => none
  | true, false => found below
  | false, true => found (below + 1)
  | true, true => found (if roundUp then below + 1 else below)

end Interval

/-- A decimal without the zeros at the end of its digits; `fuel` bounds their number. -/
def Dec.strip : Nat → Dec → Dec
  | 0, d => d
  | fuel + 1, d =>
    if d.digits ≠ 0 ∧ d.digits % 10 = 0 then Dec.strip fuel ⟨d.digits / 10, d.exponent + 1⟩ else d

/-- The shortest decimal of a magnitude. -/
def shortest (tie : Tie) (x : Binary) : Dec :=
  if x.mantissa = 0 then ⟨0, 0⟩
  else
    let i := Interval.of x
    let first := (List.range maxDigits).findSome? fun n => i.nearest? tie (n + 1)
    (first.getD ⟨i.value / i.unit, i.exponent⟩).strip (maxDigits + 1)

end FuzzyForest.Decimal
