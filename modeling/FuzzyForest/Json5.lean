/-
JSON5.

The values are those of JSON, written more freely: with comments, names without quotes, single
quotes, commas at the end, and more forms of numbers.  `Json5.read` reads a text into a value.
-/
import FuzzyForest.Settings.Datum
import FuzzyForest.Text.Blank

namespace FuzzyForest.Json5

/-! ### Space -/

/-- Whether a character ends a line. -/
def isLineEnd (c : Char) : Bool := c = '\n' ∨ c = '\r' ∨ c = '\u2028' ∨ c = '\u2029'

/-- Whether a character may stand between the parts of a value.  The next-line character may not. -/
def isSpace (c : Char) : Bool := (Text.isBlank c ∧ c ≠ '\u0085') ∨ c = '\uFEFF'

/-- The rest after a comment whose opening has been taken; nothing if it does not close. -/
def closed? : List Char → Option (List Char)
  | [] => none
  | '*' :: '/' :: rest => some rest
  | _ :: rest => closed? rest

/-- The rest after space and comments. -/
def skip : (fuel : Nat) → List Char → List Char
  | 0, cs => cs
  | fuel + 1, cs =>
    match cs.dropWhile isSpace with
    | '/' :: '/' :: rest => skip fuel (rest.dropWhile fun c => !isLineEnd c)
    | '/' :: '*' :: rest =>
      match closed? rest with
      | some rest => skip fuel rest
      | none => '/' :: '*' :: rest
    | rest => rest

/-- The rest after all space and comments in front. -/
def skipSpace (cs : List Char) : List Char := skip (cs.length + 1) cs

/-! ### Texts -/

/-- The characters that have an escape of one letter. -/
def shortEscapes : List (Char × Char) :=
  [('b', '\x08'), ('f', '\x0c'), ('n', '\n'), ('r', '\r'), ('t', '\t'), ('v', '\x0b'), ('0', '\x00')]

/-- The character of a code of four digits, or of two halves of a character. -/
def coded? (cs : List Char) : Option (Char × List Char) := do
  let (c, rest) ← Json.escape? ('u' :: cs)
  return (← c, rest)

/-- What a backslash and the characters behind it stand for.  The end of a line stands for
nothing. -/
def escaped? : List Char → Option (List Char × List Char)
  | '\r' :: '\n' :: rest => some ([], rest)
  | 'u' :: rest => (coded? rest).map fun (c, rest) => ([c], rest)
  | 'x' :: rest => (Text.coded? 2 rest).map fun (c, rest) => ([c], rest)
  | c :: rest =>
    if isLineEnd c then some ([], rest)
    else if '1' ≤ c ∧ c ≤ '9' then none
    else some ([(shortEscapes.lookup c).getD c], rest)
  | [] => none

/-- The rest of a text up to its quote. -/
def text? (quote : Char) : (fuel : Nat) → List Char → Option (List Char × List Char)
  | 0, _ => none
  | _ + 1, [] => none
  | fuel + 1, c :: rest =>
    if c = quote then some ([], rest)
    else if c ≠ '\\' ∧ isLineEnd c then none
    else do
      let (said, rest) ← if c = '\\' then escaped? rest else some ([c], rest)
      let (more, rest) ← text? quote fuel rest
      return (said ++ more, rest)

/-- Whether a character may belong to a name without quotes, where `first` says that it starts one.
All characters beyond the plain ones count as letters, except for space. -/
def isNameChar (first : Bool) (c : Char) : Bool :=
  c.isAlpha ∨ c = '$' ∨ c = '_' ∨ (c.isDigit ∧ !first) ∨ (128 ≤ c.toNat ∧ !isSpace c)

/-- The rest of a name without quotes, in which characters may be given by their codes. -/
def bare? : (fuel : Nat) → (first : Bool) → List Char → Option (List Char × List Char)
  | 0, _, _ => none
  | fuel + 1, first, cs =>
    match cs with
    | '\\' :: 'u' :: rest => do
      let (c, rest) ← coded? rest
      let (more, rest) ← bare? fuel false rest
      return (c :: more, rest)
    | c :: rest =>
      if isNameChar first c then do
        let (more, rest) ← bare? fuel false rest
        return (c :: more, rest)
      else if first then none
      else some ([], c :: rest)
    | [] => if first then none else some ([], [])

/-- The name in front. -/
def name? (cs : List Char) : Option (String × List Char) := do
  let (name, rest) ← match cs with
    | '"' :: rest => text? '"' (rest.length + 1) rest
    | '\x27' :: rest => text? '\x27' (rest.length + 1) rest
    | cs => bare? (cs.length + 1) true cs
  return (String.ofList name, rest)

/-! ### Numbers -/

/-- The digits in front, and the rest. -/
def digits (cs : List Char) : List Char × List Char :=
  (cs.takeWhile Char.isDigit, cs.dropWhile Char.isDigit)

/-- The exponent in front with its mark, and the rest; empty if there is none. -/
def exponent : List Char → List Char × List Char
  | [] => ([], [])
  | mark :: rest =>
    let (sign, more) := match rest with
      | '+' :: more => (['+'], more)
      | '-' :: more => (['-'], more)
      | more => ([], more)
    let (power, after) := digits more
    if (mark = 'e' ∨ mark = 'E') ∧ power ≠ [] then (mark :: sign ++ power, after)
    else ([], mark :: rest)

/-- The whole part in front, and the rest.  A zero is a whole part of its own. -/
def whole : List Char → List Char × List Char
  | '0' :: rest => (['0'], rest)
  | cs => digits cs

/-- The characters of the decimal number in front, and the rest. -/
def decimal? (cs : List Char) : Option (List Char × List Char) :=
  let (first, rest) := whole cs
  match rest with
  | '.' :: rest =>
    let (places, rest) := digits rest
    let (power, rest) := exponent rest
    if first = [] ∧ places = [] then none else some (first ++ '.' :: places ++ power, rest)
  | rest =>
    let (power, rest) := exponent rest
    if first = [] then none else some (first ++ power, rest)

/-- The largest number in base sixteen. -/
def largestHex : Nat := UInt32.size - 1

/-- The number in base sixteen in front of which `0x` has been taken. -/
def hex? (cs : List Char) : Option (Datum × List Char) :=
  let isHex (c : Char) : Bool := (Text.hexValue? c).isSome
  let digits := cs.takeWhile isHex
  if digits = [] then none
  else ((Text.based? 16 digits).filter fun n => n ≤ largestHex).map fun n =>
    (.integer n, cs.dropWhile isHex)

/-- The value of a decimal number.  Without a point and an exponent it must be a signed word, and
otherwise not beyond all numbers. -/
def decimalValue? (cs : List Char) : Option Datum :=
  let text := String.ofList cs
  if cs.any fun c => c = '.' ∨ c = 'e' ∨ c = 'E' then
    ((Decimal.number? text).filter Float.isFinite).map .number
  else (Decimal.integer? text).map .integer

/-- The values that are no numbers, which may have a minus sign but no plus sign. -/
def special? (negative : Bool) (cs : List Char) : Option (Datum × List Char) :=
  let infinity := "Infinity".toList
  let undefined := "NaN".toList
  if cs.take infinity.length = infinity then
    some (.number (Decimal.signed negative (1.0 / 0.0)), cs.drop infinity.length)
  else if cs.take undefined.length = undefined then
    some (.number (0.0 / 0.0), cs.drop undefined.length)
  else none

/-- The number in front.  One in base sixteen has no sign. -/
def number? (cs : List Char) : Option (Datum × List Char) :=
  let signed (sign : List Char) (cs : List Char) : Option (Datum × List Char) := do
    let (digits, rest) ← decimal? cs
    return (← decimalValue? (sign ++ digits), rest)
  match cs with
  | '0' :: 'x' :: rest => hex? rest
  | '0' :: 'X' :: rest => hex? rest
  | '+' :: rest => if rest.take 2 ∈ [['0', 'x'], ['0', 'X']] then none else signed ['+'] rest
  | '-' :: rest =>
    special? true rest <|>
      if rest.take 2 ∈ [['0', 'x'], ['0', 'X']] then none else signed ['-'] rest
  | cs => special? false cs <|> signed [] cs

/-! ### Values -/

/-- The word in front that is a value. -/
def keyword? (cs : List Char) : Option (Datum × List Char) :=
  let words : List (List Char × Datum) :=
    [("null".toList, .null), ("true".toList, .boolean true), ("false".toList, .boolean false)]
  words.findSome? fun (word, value) =>
    if cs.take word.length = word then some (value, cs.drop word.length) else none

mutual

/-- The value in front. -/
def value? : (fuel : Nat) → List Char → Option (Datum × List Char)
  | 0, _ => none
  | fuel + 1, cs =>
    match cs with
    | '[' :: rest =>
      match skipSpace rest with
      | ']' :: rest => some (.list [], rest)
      | rest => (items? fuel rest).map fun (items, rest) => (.list items, rest)
    | '\x7b' :: rest =>
      match skipSpace rest with
      | '\x7d' :: rest => some (.table [], rest)
      | rest => (members? fuel rest []).map fun (members, rest) => (.table members, rest)
    | '"' :: rest => do
      let (s, rest) ← text? '"' (rest.length + 1) rest
      return (.text (String.ofList s), rest)
    | '\x27' :: rest => do
      let (s, rest) ← text? '\x27' (rest.length + 1) rest
      return (.text (String.ofList s), rest)
    | cs => keyword? cs <|> number? cs

/-- The items of a list up to its end. -/
def items? : (fuel : Nat) → List Char → Option (List Datum × List Char)
  | 0, _ => none
  | fuel + 1, cs => do
    let (item, rest) ← value? fuel cs
    match skipSpace rest with
    | ',' :: rest =>
      match skipSpace rest with
      | ']' :: rest => return ([item], rest)
      | rest => do
        let (more, rest) ← items? fuel rest
        return (item :: more, rest)
    | ']' :: rest => return ([item], rest)
    | _ => none

/-- The members of an object up to its end, after those in `done`.  Of members of one name the last
one counts. -/
def members? : (fuel : Nat) → List Char → (done : Members) → Option (Members × List Char)
  | 0, _, _ => none
  | fuel + 1, cs, done => do
    let (name, rest) ← name? cs
    match skipSpace rest with
    | ':' :: rest => do
      let (value, rest) ← value? fuel (skipSpace rest)
      let done := Datum.assign done name value
      match skipSpace rest with
      | ',' :: rest =>
        match skipSpace rest with
        | '\x7d' :: rest => return (done, rest)
        | rest => members? fuel rest done
      | '\x7d' :: rest => return (done, rest)
      | _ => none
    | _ => none

end

/-- The value that a whole text stands for. -/
def read (text : String) : Option Datum :=
  let cs := text.toList
  match value? (2 * cs.length + 2) (skipSpace cs) with
  | some (d, rest) => if skipSpace rest = [] then some d else none
  | none => none

end FuzzyForest.Json5
