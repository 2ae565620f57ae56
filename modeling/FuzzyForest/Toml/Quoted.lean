/-
Writing texts in TOML.

`quoted` puts a text into the plainest quotes that hold it as it is: double or single ones, then
three of either.  Only what no quotes can hold is escaped.
-/
import FuzzyForest.Toml.Text

namespace FuzzyForest.Toml

/-! ### What a text holds -/

/-- The length of the longest run of a character, where `run` of them stand in front. -/
def longestRun (quote : Char) : (run : Nat) → List Char → Nat
  | run, [] => run
  | run, c :: rest =>
    if c = quote then longestRun quote (run + 1) rest else max run (longestRun quote 0 rest)

/-- Whether a text holds a character that has to be escaped. -/
def hasControls (cs : List Char) : Bool := cs.any fun c => c ≠ '\n' ∧ isControl c

/-- Whether a text holds a line break. -/
def hasBreaks (cs : List Char) : Bool := cs.any fun c => c = '\n'

/-- Whether a text holds a backslash. -/
def hasBackslashes (cs : List Char) : Bool := cs.any fun c => c = '\\'

/-- The forms of a written text. -/
inductive QuoteStyle
  /-- Double quotes. -/
  | basic
  /-- Single quotes. -/
  | literal
  /-- Three double quotes. -/
  | longBasic
  /-- Three single quotes. -/
  | longLiteral
deriving DecidableEq, Repr

/-- The form in which a text is written: the first one that holds it as it is, otherwise one with
escapes. -/
def QuoteStyle.of (cs : List Char) : QuoteStyle :=
  let doubles := longestRun '"' 0 cs
  let singles := longestRun '\x27' 0 cs
  let plain := !hasControls cs
  if plain ∧ !hasBackslashes cs ∧ doubles = 0 ∧ !hasBreaks cs then basic
  else if plain ∧ singles = 0 ∧ !hasBreaks cs then literal
  else if plain ∧ !hasBackslashes cs ∧ doubles ≤ 2 then longBasic
  else if plain ∧ singles ≤ 2 then longLiteral
  else if hasBreaks cs then longBasic
  else basic

/-! ### Escapes -/

/-- A digit in base sixteen. -/
def hexDigit (n : Nat) : Char := (Nat.toDigits 16 n).head?.elim '0' Char.toUpper

/-- An escaped character. -/
def escaped (c : Char) : List Char :=
  match shortEscapes.find? fun (_, d) => d = c with
  | some (letter, _) => ['\\', letter]
  | none => ['\\', 'u', '0', '0', hexDigit (c.toNat / 16), hexDigit (c.toNat % 16)]

/-- Whether a character is always escaped between double quotes. -/
def isEscaped (c : Char) : Bool := c = '\\' ∨ c = '\t' ∨ isControl c

/-- A text between double quotes. -/
def basicBody (cs : List Char) : List Char :=
  cs.flatMap fun c => if c = '"' ∨ isEscaped c then escaped c else [c]

/-- A text between three double quotes, where `run` double quotes stand in front of it.  Every
third one in a row is escaped, and line breaks are not. -/
def longBody : (run : Nat) → List Char → List Char
  | _, [] => []
  | run, c :: rest =>
    if c = '"' then
      if run < 2 then c :: longBody (run + 1) rest else escaped c ++ longBody 0 rest
    else if c ≠ '\n' ∧ isEscaped c then escaped c ++ longBody 0 rest
    else c :: longBody 0 rest

/-! ### Texts -/

/-- The quotes of a form. -/
def QuoteStyle.quotes : QuoteStyle → List Char
  | basic => ['"']
  | literal => ['\x27']
  | longBasic => ['"', '"', '"']
  | longLiteral => ['\x27', '\x27', '\x27']

/-- What stands between the quotes.  A text with line breaks starts on a line of its own. -/
def QuoteStyle.body (cs : List Char) : QuoteStyle → List Char
  | basic => basicBody cs
  | literal => cs
  | longBasic => (if hasBreaks cs then ['\n'] else []) ++ longBody 0 cs
  | longLiteral => (if hasBreaks cs then ['\n'] else []) ++ cs

/-- A text in quotes. -/
def quoted (s : String) : String :=
  let style := QuoteStyle.of s.toList
  String.ofList (style.quotes ++ style.body s.toList ++ style.quotes)

end FuzzyForest.Toml
