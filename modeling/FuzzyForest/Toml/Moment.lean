/-
Moments in TOML.

A moment is a date, a time of day, or both, then also with the offset from universal time.
`Moment.read?` reads one and `Moment.written` writes it in its shortest form.
-/
import FuzzyForest.Decimal.Reading
import FuzzyForest.Toml.Edition

namespace FuzzyForest.Toml

/-- The number that the first `count` characters spell, all of them digits. -/
def clockDigits? (count : Nat) (cs : List Char) : Option (Nat × List Char) :=
  let digits := cs.take count
  if digits.length = count ∧ digits.all Char.isDigit then
    some (Decimal.digitsValue digits, cs.drop count)
  else none

/-- A number with at least `count` digits. -/
def padded (count n : Nat) : String :=
  let digits := toString n
  String.ofList (List.replicate (count - digits.length) '0') ++ digits

/-- A day. -/
structure Date where
  year : Nat
  month : Nat
  day : Nat
deriving DecidableEq, Repr

namespace Date

/-- The number of days in a month. -/
def daysIn (year month : Nat) : Nat :=
  if month = 2 then (if (year % 4 = 0 ∧ year % 100 ≠ 0) ∨ year % 400 = 0 then 29 else 28)
  else if month ∈ [4, 6, 9, 11] then 30
  else 31

/-- The date in front. -/
def read? (cs : List Char) : Option (Date × List Char) := do
  let (year, cs) ← clockDigits? 4 cs
  let '-' :: cs := cs | none
  let (month, cs) ← clockDigits? 2 cs
  let '-' :: cs := cs | none
  let (day, cs) ← clockDigits? 2 cs
  if 1 ≤ month ∧ month ≤ 12 ∧ 1 ≤ day ∧ day ≤ daysIn year month then
    some (⟨year, month, day⟩, cs)
  else none

/-- A date as a text. -/
def written (d : Date) : String :=
  padded 4 d.year ++ "-" ++ padded 2 d.month ++ "-" ++ padded 2 d.day

end Date

/-- A time of day. -/
structure Time where
  hour : Nat
  minute : Nat
  /-- The second, if it is given. -/
  second : Option Nat
  /-- The decimal places of the second; none if there is no point. -/
  places : List Char
deriving DecidableEq, Repr

namespace Time

/-- The number of decimal places of a second that count. -/
def precision : Nat := 9

/-- The decimal places behind a point, if there is one. -/
def places? : List Char → Option (List Char × List Char)
  | '.' :: cs =>
    let places := cs.takeWhile Char.isDigit
    if places = [] then none else some (places, cs.dropWhile Char.isDigit)
  | cs => some ([], cs)

/-- The time in front. -/
def read? (e : Edition) (cs : List Char) : Option (Time × List Char) := do
  let (hour, cs) ← clockDigits? 2 cs
  let ':' :: cs := cs | none
  let (minute, cs) ← clockDigits? 2 cs
  if 24 ≤ hour ∨ 60 ≤ minute then none
  else match cs with
    | ':' :: cs => do
      let (second, cs) ← clockDigits? 2 cs
      let (places, cs) ← places? cs
      if 60 < second then none else some (⟨hour, minute, some second, places⟩, cs)
    | cs => if e.shortTimes then some (⟨hour, minute, none, []⟩, cs) else none

/-- Decimal places without the zeros at their end, but at least one. -/
def trimmedPlaces (places : List Char) : List Char :=
  match ((places.take precision).reverse.dropWhile fun c => c = '0').reverse with
  | [] => ['0']
  | places => places

/-- A time as a text. -/
def written (t : Time) : String :=
  let seconds := match t.second with
    | some s => ":" ++ padded 2 s
    | none => ""
  let places := if t.places = [] then "" else "." ++ String.ofList (trimmedPlaces t.places)
  padded 2 t.hour ++ ":" ++ padded 2 t.minute ++ seconds ++ places

end Time

/-- An offset from universal time. -/
inductive Offset
  /-- Universal time itself. -/
  | universal
  /-- So many minutes ahead of universal time. -/
  | ahead (n : Int)
deriving DecidableEq, Repr

namespace Offset

/-- The number of minutes in a day. -/
def day : Nat := 24 * 60

/-- The offset behind its sign. -/
def unsigned? (e : Edition) (negative : Bool) (cs : List Char) : Option (Offset × List Char) := do
  let (hours, cs) ← clockDigits? 2 cs
  let ':' :: cs := cs | none
  let (minutes, cs) ← clockDigits? 2 cs
  let n := hours * 60 + minutes
  if (if e.longOffsets then n ≤ day else hours < 24 ∧ minutes < 60) then
    some (ahead (if negative then -(n : Int) else n), cs)
  else none

/-- The offset in front, if there is one. -/
def read? (e : Edition) : List Char → Option (Option Offset × List Char)
  | '+' :: cs => (unsigned? e false cs).map fun (o, cs) => (some o, cs)
  | '-' :: cs => (unsigned? e true cs).map fun (o, cs) => (some o, cs)
  | 'Z' :: cs => some (some universal, cs)
  | 'z' :: cs => some (some universal, cs)
  | cs => some (none, cs)

/-- An offset as a text. -/
def written : Offset → String
  | universal => "Z"
  | ahead n =>
    (if n < 0 then "-" else "+") ++ padded 2 (n.natAbs / 60) ++ ":" ++ padded 2 (n.natAbs % 60)

end Offset

/-- A moment. -/
inductive Moment
  | date (d : Date)
  | time (t : Time)
  /-- A date and a time of day, with an offset if one is given. -/
  | both (d : Date) (t : Time) (o : Option Offset)
deriving DecidableEq, Repr

namespace Moment

/-- The moment that characters spell. -/
def read? (e : Edition) (cs : List Char) : Option Moment :=
  match Date.read? cs with
  | some (d, []) => some (date d)
  | some (d, c :: cs) => do
    if c = 'T' ∨ c = 't' ∨ c = ' ' then
      let (t, cs) ← Time.read? e cs
      let (o, cs) ← Offset.read? e cs
      if cs = [] then some (both d t o) else none
    else none
  | none =>
    match Time.read? e cs with
    | some (t, []) => some (time t)
    | _ => none

/-- A moment as a text. -/
def written : Moment → String
  | date d => d.written
  | time t => t.written
  | both d t o => d.written ++ "T" ++ t.written ++ (o.map Offset.written).getD ""

end Moment

end FuzzyForest.Toml
