/-
Records of separated values.

A record ends with its line, and its fields are separated by one byte.  A field that begins with a
quote may hold separators and line breaks between pairs of quotes.  Lines are counted by themselves:
there every quote opens or closes, wherever it stands, and a line break between quotes ends nothing.
-/
import FuzzyForest.Text.Encoded

namespace FuzzyForest

namespace Record

/-- The byte that opens and closes. -/
def quote : UInt8 := 0x22

/-- The byte that ends a line. -/
def lineBreak : UInt8 := 0x0A

/-- The byte that may stand in front of the end of a line. -/
def carriage : UInt8 := 0x0D

/-- Whether the place behind a byte is inside quotes. -/
def quotedAfter (inside : Bool) (b : UInt8) : Bool := if b = quote then !inside else inside

/-- Bytes without the carriage return at their end. -/
def trimmed (bytes : Encoded) : Encoded :=
  if bytes.getLast? = some carriage then bytes.dropLast else bytes

/-! ### Lines -/

/-- The ended lines of bytes, and the last one, which has no end.  `line` is what is read of the
present one, the last byte first, and `inside` says whether that ends inside quotes. -/
def linesFrom (inside : Bool) (line : Encoded) : Encoded → List Encoded × Encoded
  | [] => ([], line.reverse)
  | b :: bytes =>
    let inside := quotedAfter inside b
    if b = lineBreak ∧ !inside then
      let (lines, last) := linesFrom false [] bytes
      (line.reverse :: lines, last)
    else linesFrom inside (b :: line) bytes

/-- The ended lines of bytes, and the last one, which has no end and may be empty. -/
def lines (bytes : Encoded) : List Encoded × Encoded := linesFrom false [] bytes

/-- The lines of bytes, whether or not they have an end. -/
def allLines (bytes : Encoded) : List Encoded :=
  let (lines, last) := lines bytes
  if last = [] then lines else lines ++ [last]

/-- The bytes behind the first line. -/
def afterLine (bytes : Encoded) : Encoded :=
  match lines bytes with
  | (line :: _, _) => bytes.drop (line.length + 1)
  | ([], _) => []

/-- Bytes without the line breaks in front. -/
def afterBreaks (bytes : Encoded) : Encoded :=
  bytes.dropWhile fun b => b = lineBreak ∨ b = carriage

/-! ### Fields -/

/-- A field. -/
structure Field where
  /-- The bytes, with their quotes. -/
  bytes : Encoded
  /-- The field begins with a quote. -/
  quoted : Bool
deriving DecidableEq, Repr

/-- What ends a field. -/
inductive Ending
  | separator
  | line
  | text
deriving DecidableEq, Repr

/-- The bytes up to the end of a field, that end, and what follows. -/
def cut (separator : UInt8) (quoted inside : Bool) : Encoded → Encoded × Ending × Encoded
  | [] => ([], .text, [])
  | b :: bytes =>
    let inside := quoted && quotedAfter inside b
    if !inside ∧ b = lineBreak then ([], .line, bytes)
    else if !inside ∧ b = separator then ([], .separator, bytes)
    else
      let (field, ending, rest) := cut separator quoted inside bytes
      (b :: field, ending, rest)

/-- The first field, what ends it, and what follows. -/
def first (separator : UInt8) (bytes : Encoded) : Field × Ending × Encoded :=
  let quoted := decide (bytes.head? = some quote)
  let (field, ending, rest) := cut separator quoted false bytes
  (⟨field, quoted⟩, ending, rest)

/-- The fields of a line, at most `most` of them. -/
def fields (separator : UInt8) : (most : Nat) → Encoded → List Field
  | 0, _ => []
  | most + 1, line =>
    match first separator line with
    | (field, .separator, rest) => field :: fields separator most rest
    | (field, _, _) => [field]

/-- What a field says, without the quotes around it. -/
def Field.content (f : Field) : Encoded :=
  if f.quoted ∧ 2 ≤ f.bytes.length then (f.bytes.drop 1).dropLast else f.bytes

/-- A field without the carriage return at its end. -/
def Field.trimmed (f : Field) : Field := { f with bytes := Record.trimmed f.bytes }

/-! ### Records -/

/-- The first record, and what follows it.  If it has more than `width` fields there is none; only a
separator at the end of the text counts for nothing. -/
def record? (separator : UInt8) : (width : Nat) → Encoded → Option (List Field × Encoded)
  | 0, _ => none
  | width + 1, bytes =>
    match first separator bytes with
    | (field, .separator, rest) =>
      if width = 0 ∧ rest = [] then some ([field], [])
      else (record? separator width rest).map fun (fields, rest) => (field :: fields, rest)
    | (field, _, rest) => some ([field], rest)

/-- The records of bytes.  Every record takes at least one of the `fuel` bytes. -/
def records? (separator : UInt8) (width : Nat) : (fuel : Nat) → Encoded → Option (List (List Field))
  | _, [] => some []
  | 0, _ :: _ => none
  | fuel + 1, bytes => do
    let (record, rest) ← record? separator width bytes
    return record :: (← records? separator width fuel rest)

/-- The records of bytes, if they are as many as `count`. -/
def counted? (separator : UInt8) (width count : Nat) (bytes : Encoded) :
    Option (List (List Field)) :=
  (records? separator width bytes.length bytes).filter fun records => records.length = count

/-- The records of a text.  The ended lines hold a record each, and so does the last one if there is
anything on it. -/
def ofText? (separator : UInt8) (width : Nat) (bytes : Encoded) : Option (List (List Field)) := do
  let (lines, last) := lines bytes
  let ended ← counted? separator width lines.length (bytes.take (bytes.length - last.length))
  let unended ← counted? separator width (if last = [] then 0 else 1) last
  return ended ++ unended

end Record

end FuzzyForest
