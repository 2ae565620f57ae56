/-
The kind of a column.

Each field of a column suggests a kind by its form; empty fields suggest none.  A column has the
kind on which its fields agree, whole numbers among numbers being numbers, and is text otherwise.
-/
import FuzzyForest.Decimal.Reading
import FuzzyForest.Table.Basic
import FuzzyForest.Table.Record
import FuzzyForest.Text.Digit

namespace FuzzyForest

namespace ColumnKind

/-! ### Forms of fields -/

/-- Whether characters are digits of any script, at least one. -/
def isDigits (cs : List Char) : Bool := cs ≠ [] ∧ cs.all Text.isDigit

/-- Characters without a sign in front. -/
def unsigned : List Char → List Char
  | '+' :: cs => cs
  | '-' :: cs => cs
  | cs => cs

/-- Whether characters are an exponent with its mark. -/
def isExponent : List Char → Bool
  | c :: cs => (c = 'e' ∨ c = 'E') ∧ isDigits (unsigned cs)
  | [] => false

/-- A letter, where case does not count.  The long s is an s. -/
def caseless (c : Char) : Char := if c = '\u017F' then 's' else c.toLower

/-- Whether characters are `true` or `false`. -/
def isTruthWord (cs : List Char) : Bool :=
  cs = ['t', 'r', 'u', 'e'] ∨ cs = ['f', 'a', 'l', 's', 'e']

/-- An unsigned number that has a point or an exponent. -/
def isMagnitude (cs : List Char) : Bool :=
  let whole := cs.takeWhile Text.isDigit
  match cs.dropWhile Text.isDigit with
  | '.' :: rest =>
    let last := rest.dropWhile Text.isDigit
    if rest.takeWhile Text.isDigit = [] then whole ≠ [] ∧ last = []
    else last = [] ∨ isExponent last
  | rest => whole ≠ [] ∧ isExponent rest

/-- A number that has a point or an exponent, or the name of an infinite or undefined one. -/
def isNumber (cs : List Char) : Bool :=
  let cs := unsigned cs
  cs = ['i', 'n', 'f'] ∨ cs = ['N', 'a', 'N'] ∨ isMagnitude cs

/-- A whole number, which may be negative. -/
def isInteger : List Char → Bool
  | '-' :: digits => isDigits digits
  | digits => isDigits digits

/-- The kind that a field suggests. -/
def ofField (f : Record.Field) : ColumnKind :=
  let cs := f.content.shown
  if isTruthWord (cs.map caseless) then .boolean
  else if isNumber cs then .number
  else if isInteger cs then .integer
  else .text

/-! ### Agreement -/

/-- The kind of which both are. -/
def join : ColumnKind → ColumnKind → ColumnKind
  | integer, number => number
  | number, integer => number
  | a, b => if a = b then a else text

/-- The kind of a column with these fields. -/
def ofFields (fields : List Record.Field) : ColumnKind :=
  match (fields.filter fun f => f.bytes ≠ []).map ofField with
  | [] => text
  | kind :: kinds => kinds.foldl join kind

/-! ### Cells -/

/-- Whether a character may stand in front of a number. -/
def isPadding (c : Char) : Bool := c = ' ' ∨ c = '\t'

/-- The characters of a field between the quotes that it should have. -/
def bare (f : Record.Field) : List Char :=
  Encoded.shown (if f.quoted then (f.bytes.drop 1).dropLast else f.bytes)

/-- The cell of a field that is read as a number; nothing if it is none. -/
def numberCell? (read : String → Option Float) (f : Record.Field) : Option Cell :=
  match (bare f).dropWhile isPadding with
  | [] => some .empty
  | cs => (read (String.ofList cs)).map .number

/-- The cell of a field that is read as a truth value; nothing if it is none. -/
def truthCell? (f : Record.Field) : Option Cell :=
  let cs := bare f
  if cs = [] then some .empty
  else if isTruthWord (cs.map Char.toLower) then some .other
  else none

/-- The cell of a field that is read as a text; nothing if that is garbled or its quotes do not
close. -/
def textCell? (f : Record.Field) : Option Cell :=
  let closed := 1 < f.bytes.length ∧ f.bytes.getLast? = f.bytes.head?
  if (f.quoted → closed) ∧ f.bytes.isWhole then some .other else none

/-- The cell of a field in a column of a kind; nothing if the field is not of that kind. -/
def cell? (kind : ColumnKind) (f : Record.Field) : Option Cell :=
  if f.bytes = [] then some .empty
  else match kind with
    | integer => numberCell? (fun s => (Decimal.integer? s).map Float.ofInt) f
    | number => numberCell? Decimal.number? f
    | boolean => truthCell? f
    | text => textCell? f

end ColumnKind

end FuzzyForest
