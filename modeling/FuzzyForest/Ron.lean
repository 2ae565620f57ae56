/-
RON.

A text holds lists in square brackets, tables in braces with quoted names, and records in round
brackets with bare names, in front of which a title may stand.  `Ron.read` reads a text into a
value.
-/
import FuzzyForest.Settings.Datum
import FuzzyForest.Text.Code

namespace FuzzyForest.Ron

/-! ### Space -/

/-- Whether a character may stand between the parts of a value. -/
def isSpace (c : Char) : Bool := c = ' ' ∨ c = '\t' ∨ c = '\n' ∨ c = '\r'

/-- The rest after a comment that may hold others, of which `depth` more are open. -/
def closed? : (depth : Nat) → List Char → Option (List Char)
  | _, [] => none
  | 0, '*' :: '/' :: rest => some rest
  | depth + 1, '*' :: '/' :: rest => closed? depth rest
  | depth, '/' :: '*' :: rest => closed? (depth + 1) rest
  | depth, _ :: rest => closed? depth rest

/-- The rest after space and comments. -/
def skipFrom : (fuel : Nat) → List Char → List Char
  | 0, cs => cs
  | fuel + 1, cs =>
    match cs.dropWhile isSpace with
    | '/' :: '/' :: rest => skipFrom fuel (rest.dropWhile fun c => c ≠ '\n')
    | '/' :: '*' :: rest =>
      match closed? 0 rest with
      | some rest => skipFrom fuel rest
      | none => '/' :: '*' :: rest
    | rest => rest

/-- The rest after all space and comments in front. -/
def skip (cs : List Char) : List Char := skipFrom (cs.length + 1) cs

/-! ### Texts -/

/-- The characters that have an escape of one letter. -/
def shortEscapes : List (Char × Char) :=
  [('"', '"'), ('\x27', '\x27'), ('\\', '\\'), ('n', '\n'), ('r', '\r'), ('t', '\t'), ('0', '\x00')]

/-- The character that a backslash and what follows it stand for. -/
def escaped? : List Char → Option (Char × List Char)
  | 'x' :: rest => Text.coded? 2 rest
  | 'u' :: '\x7b' :: rest =>
    let digits := rest.takeWhile fun c => c ≠ '\x7d'
    if 1 ≤ digits.length ∧ digits.length ≤ 6 then
      (Text.coded? digits.length rest).map fun (c, rest) => (c, rest.drop 1)
    else none
  | c :: rest => (shortEscapes.lookup c).map fun d => (d, rest)
  | [] => none

/-- The rest of a text behind its quote. -/
def text? : (fuel : Nat) → List Char → Option (List Char × List Char)
  | 0, _ => none
  | _ + 1, [] => none
  | fuel + 1, c :: rest =>
    if c = '"' then some ([], rest)
    else do
      let (said, rest) ← if c = '\\' then escaped? rest else some (c, rest)
      let (more, rest) ← text? fuel rest
      return (said :: more, rest)

/-- The rest of a text without escapes up to a quote and `hashes` signs behind it. -/
def raw? (hashes : Nat) : List Char → Option (List Char × List Char)
  | [] => none
  | c :: rest =>
    if c = '"' ∧ rest.take hashes = List.replicate hashes '#' then some ([], rest.drop hashes)
    else (raw? hashes rest).map fun (more, rest) => (c :: more, rest)

/-- The text in front. -/
def anyText? : List Char → Option (String × List Char)
  | '"' :: rest => (text? (rest.length + 1) rest).map fun (s, rest) => (String.ofList s, rest)
  | 'r' :: rest =>
    let hashes := (rest.takeWhile fun c => c = '#').length
    match rest.drop hashes with
    | '"' :: rest => (raw? hashes rest).map fun (s, rest) => (String.ofList s, rest)
    | _ => none
  | _ => none

/-- The rest of a single character behind its quote. -/
def char? : List Char → Option (Char × List Char)
  | '\\' :: rest => do
    let (c, rest) ← escaped? rest
    match rest with
    | '\x27' :: rest => return (c, rest)
    | _ => none
  | c :: '\x27' :: rest => some (c, rest)
  | _ => none

/-! ### Numbers -/

/-- Whether a character may belong to a number. -/
def isNumberChar (c : Char) : Bool := c.isAlphanum ∨ c = '_' ∨ c = '.' ∨ c = '+' ∨ c = '-'

/-- The letters that stand for bases. -/
def bases : List (Char × Nat) := [('x', 16), ('o', 8), ('b', 2)]

/-- A whole number without its sign. -/
def magnitude? (cs : List Char) : Option Nat :=
  let (base, digits) := match cs with
    | '0' :: letter :: rest => match bases.lookup letter with
      | some base => (base, rest)
      | none => (10, cs)
    | _ => (10, cs)
  let digits := digits.filter fun c => c ≠ '_'
  if digits = [] then none else Text.based? base digits

/-- A number, which must be a word if it is whole. -/
def number? (cs : List Char) : Option Datum :=
  let (negative, rest) := match cs with
    | '-' :: rest => (true, rest)
    | '+' :: rest => (false, rest)
    | rest => (false, rest)
  match magnitude? rest with
  | some n =>
    if negative then
      if n ≤ Decimal.maxInteger + 1 then some (.integer (-(n : Int))) else none
    else if n ≤ Decimal.maxWord then some (.integer n) else none
  | none =>
    if rest.head? = some '_' then none
    else (Decimal.number? (String.ofList (cs.filter fun c => c ≠ '_'))).map .number

/-! ### Values -/

/-- Whether a character may belong to a bare name, where `first` says that it starts one. -/
def isNameChar (first : Bool) (c : Char) : Bool := c.isAlpha ∨ c = '_' ∨ (c.isDigit ∧ !first)

/-- The bare name in front, and the rest; empty if there is none. -/
def name : List Char → List Char × List Char
  | [] => ([], [])
  | c :: rest =>
    if isNameChar true c then
      (c :: rest.takeWhile (isNameChar false), rest.dropWhile (isNameChar false))
    else ([], c :: rest)

/-- The values that have names. -/
def keywords : List (String × Datum) :=
  [("true", .boolean true), ("false", .boolean false), ("None", .null),
    ("inf", .number (1.0 / 0.0)), ("NaN", .number (0.0 / 0.0))]

/-- Whether named members follow the opening of a record. -/
def hasNames (cs : List Char) : Bool :=
  let (first, rest) := name cs
  first ≠ [] ∧ (skip rest).head? = some ':'

mutual

/-- The value in front. -/
def value? : (fuel : Nat) → List Char → Option (Datum × List Char)
  | 0, _ => none
  | fuel + 1, cs =>
    match cs with
    | '[' :: rest => (items? ']' fuel (skip rest)).map fun (ds, rest) => (.list ds, rest)
    | '\x7b' :: rest => (entries? fuel (skip rest) []).map fun (ms, rest) => (.table ms, rest)
    | '(' :: rest => record? fuel (skip rest)
    | '\x27' :: rest => (char? rest).map fun (c, rest) => (.text (String.singleton c), rest)
    | cs =>
      match anyText? cs with
      | some (s, rest) => some (.text s, rest)
      | none =>
        let (title, rest) := name cs
        if title = [] then
          (number? (cs.takeWhile isNumberChar)).map fun d => (d, cs.dropWhile isNumberChar)
        else match keywords.lookup (String.ofList title) with
          | some d => some (d, rest)
          | none =>
            match skip rest with
            | '(' :: rest => record? fuel (skip rest)
            | _ => if title = "Some".toList then none else some (.null, rest)

/-- The rest of a record: nothing, named members, a value by itself, or several values. -/
def record? : (fuel : Nat) → List Char → Option (Datum × List Char)
  | 0, _ => none
  | fuel + 1, cs =>
    if cs.head? = some ')' then some (.null, cs.drop 1)
    else if hasNames cs then (members? fuel cs []).map fun (ms, rest) => (.table ms, rest)
    else do
      let (items, rest) ← items? ')' fuel cs
      match items with
      | [item] => return (item, rest)
      | items => return (.list items, rest)

/-- The items of a list up to its end. -/
def items? (closing : Char) : (fuel : Nat) → List Char → Option (List Datum × List Char)
  | 0, _ => none
  | fuel + 1, cs =>
    if cs.head? = some closing then some ([], cs.drop 1)
    else do
      let (item, rest) ← value? fuel cs
      match skip rest with
      | ',' :: rest => do
        let (more, rest) ← items? closing fuel (skip rest)
        return (item :: more, rest)
      | c :: rest => if c = closing then return ([item], rest) else none
      | [] => none

/-- The members of a table up to its end, after those in `done`. -/
def entries? : (fuel : Nat) → List Char → (done : Members) → Option (Members × List Char)
  | 0, _, _ => none
  | fuel + 1, cs, done =>
    if cs.head? = some '\x7d' then some (done, cs.drop 1)
    else do
      let (key, rest) ← anyText? cs
      let (done, rest) ← assigned? fuel key rest done
      match skip rest with
      | ',' :: rest => entries? fuel (skip rest) done
      | '\x7d' :: rest => return (done, rest)
      | _ => none

/-- The members of a record up to its end, after those in `done`. -/
def members? : (fuel : Nat) → List Char → (done : Members) → Option (Members × List Char)
  | 0, _, _ => none
  | fuel + 1, cs, done =>
    if cs.head? = some ')' then some (done, cs.drop 1)
    else do
      let (key, rest) := name cs
      if key = [] then none
      else do
        let (done, rest) ← assigned? fuel (String.ofList key) rest done
        match skip rest with
        | ',' :: rest => members? fuel (skip rest) done
        | ')' :: rest => return (done, rest)
        | _ => none

/-- Named values with the one of a name, whose colon comes next. -/
def assigned? : (fuel : Nat) → (key : String) → List Char → (done : Members) →
    Option (Members × List Char)
  | 0, _, _, _ => none
  | fuel + 1, key, cs, done =>
    match skip cs with
    | ':' :: rest => (value? fuel (skip rest)).map fun (d, rest) => (Datum.assign done key d, rest)
    | _ => none

end

/-- The value that a whole text stands for. -/
def read (text : String) : Option Datum :=
  let cs := text.toList
  match value? (3 * cs.length + 3) (skip cs) with
  | some (d, rest) => if skip rest = [] then some d else none
  | none => none

end FuzzyForest.Ron
