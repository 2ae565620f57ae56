/-
JSON texts.

`Json.read` reads a text into a value.  Whole numbers that are words keep their value, and all
others are scaled from their leading digits in floating-point arithmetic, which is fast but not
always exact.  The members of an object keep their order, repeated ones included.  What only a
reader of the value can object to stays in it: numbers beyond all numbers, texts that hold half of
a character, and nesting of any depth.
-/
import FuzzyForest.Decimal.Reading
import FuzzyForest.Text.Code

namespace FuzzyForest

/-- A JSON value. -/
inductive Json
  | null
  | bool (b : Bool)
  /-- A word without a fraction and an exponent. -/
  | integer (n : Int)
  /-- Any other number. -/
  | number (x : Float)
  /-- A text; nothing if it holds half of a character. -/
  | string (s : Option String)
  | array (items : List Json)
  | object (members : List (Option String × Json))

namespace Json

/-! ### Characters -/

/-- Whether a character may stand between the parts of a value. -/
def isSpace (c : Char) : Bool := c = ' ' ∨ c = '\n' ∨ c = '\r' ∨ c = '\t'

/-- The rest of a text after its leading spaces. -/
def skip (cs : List Char) : List Char := cs.dropWhile isSpace

/-- The characters that have an escape of one letter. -/
def shortEscapes : List (Char × Char) :=
  [('"', '"'), ('\\', '\\'), ('/', '/'), ('b', '\x08'), ('f', '\x0c'), ('n', '\n'), ('r', '\r'),
    ('t', '\t')]

/-- Whether a code is the first half of a character beyond 16 bits. -/
def isHighHalf (code : Nat) : Bool := 0xD800 ≤ code ∧ code < 0xDC00

/-- Whether a code is the second half of a character beyond 16 bits. -/
def isLowHalf (code : Nat) : Bool := 0xDC00 ≤ code ∧ code < 0xE000

/-- The character of two halves. -/
def joined (high low : Nat) : Char :=
  Char.ofNat (0x10000 + (high - 0xD800) * 0x400 + (low - 0xDC00))

/-- The character that a backslash and what follows it stand for, or nothing if that is half of a
character whose other half is not next to it. -/
def escape? : List Char → Option (Option Char × List Char)
  | 'u' :: rest => do
    let (code, rest) ← Text.hex? 4 rest
    if isLowHalf code then return (none, rest)
    else if isHighHalf code then
      match rest with
      | '\\' :: 'u' :: tail =>
        match Text.hex? 4 tail with
        | some (low, tail) =>
          if isLowHalf low then return (some (joined code low), tail) else return (none, rest)
        | none => return (none, rest)
      | _ => return (none, rest)
    else return (some (Char.ofNat code), rest)
  | c :: rest => (shortEscapes.lookup c).map fun d => (some d, rest)
  | [] => none

/-- The characters of a string after its opening quote, each nothing if it is half of one. -/
def stringBody : (fuel : Nat) → List Char → Option (List (Option Char) × List Char)
  | 0, _ => none
  | _ + 1, [] => none
  | fuel + 1, c :: rest =>
    if c = '"' then some ([], rest)
    else if c = '\\' then do
      let (d, rest) ← escape? rest
      let (s, rest) ← stringBody fuel rest
      return (d :: s, rest)
    else if c.toNat < 32 then none
    else do
      let (s, rest) ← stringBody fuel rest
      return (some c :: s, rest)

/-- A string after its opening quote. -/
def string? (cs : List Char) : Option (Option String × List Char) :=
  (stringBody (cs.length + 1) cs).map fun (s, rest) => ((s.mapM id).map String.ofList, rest)

/-! ### Numbers -/

/-- The places behind a point, of which there must be at least one; none without a point. -/
def places? : List Char → Option (List Char × List Char)
  | '.' :: rest =>
    let places := rest.takeWhile Char.isDigit
    if places = [] then none else some (places, rest.dropWhile Char.isDigit)
  | rest => some ([], rest)

/-- The digits of an exponent, of which there must be at least one. -/
def powerDigits? (negative : Bool) (cs : List Char) : Option (Option Int × List Char) :=
  let digits := cs.takeWhile Char.isDigit
  let n : Int := Decimal.digitsValue digits
  if digits = [] then none
  else some (some (if negative then -n else n), cs.dropWhile Char.isDigit)

/-- The exponent of a number, if it has one. -/
def power? : List Char → Option (Option Int × List Char)
  | c :: rest =>
    if c = 'e' ∨ c = 'E' then
      match rest with
      | '-' :: rest => powerDigits? true rest
      | '+' :: rest => powerDigits? false rest
      | rest => powerDigits? false rest
    else some (none, c :: rest)
  | [] => some (none, [])

/-- The leading digits of a number that fit into a word, as far as they have been read. -/
structure Leading where
  /-- The digits as one number. -/
  value : Nat
  /-- The power of ten of the last one. -/
  exponent : Int
  /-- A digit did not fit. -/
  full : Bool
deriving DecidableEq, Repr

namespace Leading

/-- Takes a digit if it fits. -/
def push (l : Leading) (shift : Int) (c : Char) : Leading :=
  let value := 10 * l.value + (c.toNat - '0'.toNat)
  if l.full ∨ Decimal.maxWord < value then { l with full := true }
  else { l with value, exponent := l.exponent + shift }

/-- The leading digits of a whole part.  Every digit that does not fit counts a power of ten. -/
def ofWhole (digits : List Char) : Leading :=
  digits.foldl (fun l c =>
    let l := l.push 0 c
    if l.full then { l with exponent := l.exponent + 1 } else l) ⟨0, 0, false⟩

/-- The leading digits with the places behind the point. -/
def withPlaces (l : Leading) (places : List Char) : Leading :=
  places.foldl (fun l c => l.push (-1) c) { l with full := false }

end Leading

/-- A power of ten. -/
def tenTo (n : Nat) : Float := Decimal.ofScientific 1 n

/-- The largest power of ten that is a number. -/
def largestPower : Nat := 308

/-- A number divided by a power of ten, in steps of the largest one. -/
def scaledDown : (fuel : Nat) → Float → (power : Nat) → Float
  | 0, x, _ => x
  | fuel + 1, x, power =>
    if power ≤ largestPower then x / tenTo power
    else if x == 0.0 then x
    else scaledDown fuel (x / tenTo largestPower) (power - largestPower)

/-- A whole number times a power of ten, where each step is rounded. -/
def scaled (n : Nat) (exponent : Int) : Float :=
  let x := Decimal.ofScientific n 0
  if exponent < 0 then scaledDown 4 x exponent.natAbs
  else if exponent.natAbs ≤ largestPower then x * tenTo exponent.natAbs
  else if n = 0 then x
  else 1.0 / 0.0

/-- The number of digits `l` times a power of ten. -/
def magnitude (l : Leading) (power : Int) : Float :=
  if Decimal.maxPower < power.natAbs then
    if 0 < power ∧ l.value ≠ 0 then 1.0 / 0.0 else 0.0
  else scaled l.value (l.exponent + power)

/-- A number without its sign.  Zero is the only whole part that starts with a zero. -/
def numberBody (negative : Bool) (cs : List Char) : Option (Json × List Char) :=
  let whole := cs.takeWhile Char.isDigit
  if whole = [] ∨ (whole.head? = some '0' ∧ whole ≠ ['0']) then none
  else do
    let (places, rest) ← places? (cs.dropWhile Char.isDigit)
    let (power, rest) ← power? rest
    let start := Leading.ofWhole whole
    if places = [] ∧ power = none ∧ !start.full
        ∧ (!negative ∨ (0 < start.value ∧ start.value ≤ Decimal.maxInteger + 1)) then
      return (.integer (if negative then -(start.value : Int) else start.value), rest)
    else
      let x := magnitude (start.withPlaces places) (power.getD 0)
      return (.number (Decimal.signed negative x), rest)

/-! ### Values -/

/-- The word that a text starts with, and its value. -/
def keyword? (cs : List Char) : Option (Json × List Char) :=
  let words : List (List Char × Json) :=
    [("null".toList, .null), ("true".toList, .bool true), ("false".toList, .bool false)]
  words.findSome? fun (word, value) =>
    if cs.take word.length = word then some (value, cs.drop word.length) else none

mutual

/-- The value that a text starts with. -/
def value : (fuel : Nat) → List Char → Option (Json × List Char)
  | 0, _ => none
  | fuel + 1, cs =>
    match skip cs with
    | [] => none
    | '"' :: rest => do
      let (s, rest) ← string? rest
      return (.string s, rest)
    | '[' :: rest =>
      match skip rest with
      | ']' :: rest => some (.array [], rest)
      | _ => do
        let (items, rest) ← items fuel rest
        return (.array items, rest)
    | '\x7b' :: rest =>
      match skip rest with
      | '\x7d' :: rest => some (.object [], rest)
      | _ => do
        let (members, rest) ← members fuel rest
        return (.object members, rest)
    | '-' :: rest => numberBody true rest
    | c :: rest => if c.isDigit then numberBody false (c :: rest) else keyword? (c :: rest)

/-- The items of an array up to its end. -/
def items : (fuel : Nat) → List Char → Option (List Json × List Char)
  | 0, _ => none
  | fuel + 1, cs => do
    let (item, rest) ← value fuel cs
    match skip rest with
    | ',' :: rest => do
      let (more, rest) ← items fuel rest
      return (item :: more, rest)
    | ']' :: rest => return ([item], rest)
    | _ => none

/-- The members of an object up to its end. -/
def members : (fuel : Nat) → List Char → Option (List (Option String × Json) × List Char)
  | 0, _ => none
  | fuel + 1, cs =>
    match skip cs with
    | '"' :: rest => do
      let (name, rest) ← string? rest
      match skip rest with
      | ':' :: rest => do
        let (item, rest) ← value fuel rest
        match skip rest with
        | ',' :: rest => do
          let (more, rest) ← members fuel rest
          return ((name, item) :: more, rest)
        | '\x7d' :: rest => return ([(name, item)], rest)
        | _ => none
      | _ => none
    | _ => none

end

/-- The value that a whole text stands for. -/
def read (text : String) : Option Json :=
  let cs := text.toList
  match value (2 * cs.length + 2) cs with
  | some (v, rest) => if skip rest = [] then some v else none
  | none => none

/-! ### Nesting -/

mutual

/-- The number of lists and objects that are nested in each other. -/
def depth : Json → Nat
  | .array items => depths items + 1
  | .object members => memberDepths members + 1
  | _ => 0

/-- The largest depth of the items of a list. -/
def depths : List Json → Nat
  | [] => 0
  | item :: rest => max item.depth (depths rest)

/-- The largest depth of named values. -/
def memberDepths : List (Option String × Json) → Nat
  | [] => 0
  | (_, item) :: rest => max item.depth (memberDepths rest)

end

end Json

end FuzzyForest
