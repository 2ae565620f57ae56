/-
Texts in TOML.

A text stands between double quotes, where a backslash starts an escape, or between single quotes,
where nothing is escaped.  Three quotes on either side allow line breaks.
-/
import FuzzyForest.Text.Code
import FuzzyForest.Toml.Edition

namespace FuzzyForest.Toml

/-! ### Characters -/

/-- Whether a character may not stand for itself anywhere. -/
def isControl (c : Char) : Bool := (c.toNat < 32 ∧ c ≠ '\t') ∨ c.toNat = 127

/-- The characters that have an escape of one letter. -/
def shortEscapes : List (Char × Char) :=
  [('b', '\x08'), ('t', '\t'), ('n', '\n'), ('f', '\x0c'), ('r', '\r'), ('"', '"'), ('\\', '\\')]

/-- The character that is escaped by what follows a backslash. -/
def escaped? (e : Edition) : List Char → Option (Char × List Char)
  | 'u' :: rest => Text.coded? 4 rest
  | 'U' :: rest => Text.coded? 8 rest
  | 'x' :: rest => if e.moreEscapes then Text.coded? 2 rest else none
  | 'e' :: rest => if e.moreEscapes then some ('\x1b', rest) else none
  | c :: rest => (shortEscapes.lookup c).map fun d => (d, rest)
  | [] => none

/-! ### Short texts -/

/-- The rest of a text behind a double quote. -/
def basic? (e : Edition) : (fuel : Nat) → List Char → Option (List Char × List Char)
  | 0, _ => none
  | _ + 1, [] => none
  | fuel + 1, c :: rest =>
    if c = '"' then some ([], rest)
    else if c = '\\' then do
      let (d, rest) ← escaped? e rest
      let (s, rest) ← basic? e fuel rest
      return (d :: s, rest)
    else if isControl c then none
    else do
      let (s, rest) ← basic? e fuel rest
      return (c :: s, rest)

/-- The rest of a text behind a single quote. -/
def literal? : List Char → Option (List Char × List Char)
  | [] => none
  | c :: rest =>
    if c = '\x27' then some ([], rest)
    else if isControl c then none
    else do
      let (s, rest) ← literal? rest
      return (c :: s, rest)

/-! ### Long texts -/

/-- The number of quotes in front, of which five count. -/
def quotes (quote : Char) (cs : List Char) : Nat :=
  min 5 (cs.takeWhile fun c => c = quote).length

/-- A line break in front, if there is one, and the rest. -/
def lineBreak? : List Char → Option (List Char × List Char)
  | '\n' :: rest => some (['\n'], rest)
  | '\r' :: '\n' :: rest => some (['\r', '\n'], rest)
  | _ => none

/-- The rest after a line break, if there is one in front. -/
def newline? (cs : List Char) : Option (List Char) := (lineBreak? cs).map Prod.snd

/-- The rest after blanks and line breaks. -/
def skipGap : List Char → List Char
  | ' ' :: rest => skipGap rest
  | '\t' :: rest => skipGap rest
  | '\n' :: rest => skipGap rest
  | '\r' :: '\n' :: rest => skipGap rest
  | rest => rest

/-- What a line break says. -/
def Edition.broken (e : Edition) (written : List Char) : List Char :=
  if e.keepsBreaks then written else ['\n']

/-- What follows a backslash in a long text: an escape, or the end of the line and all blanks and
line breaks behind it. -/
def longEscape? (e : Edition) (cs : List Char) : Option (List Char × List Char) :=
  match escaped? e cs with
  | some (c, rest) => some ([c], rest)
  | none =>
    let rest := cs.dropWhile fun c => c = ' ' ∨ c = '\t'
    if (newline? rest).isSome then some ([], skipGap rest) else none

/-- The rest of a long text, where `escapes` says whether a backslash starts an escape. -/
def long? (e : Edition) (quote : Char) (escapes : Bool) :
    (fuel : Nat) → List Char → Option (List Char × List Char)
  | 0, _ => none
  | _ + 1, [] => none
  | fuel + 1, c :: rest =>
    let n := quotes quote (c :: rest)
    if 3 ≤ n then some (List.replicate (n - 3) quote, (c :: rest).drop n)
    else match lineBreak? (c :: rest) with
      | some (written, rest) => do
        let (s, rest) ← long? e quote escapes fuel rest
        return (e.broken written ++ s, rest)
      | none =>
        if escapes ∧ c = '\\' then do
          let (d, rest) ← longEscape? e rest
          let (s, rest) ← long? e quote escapes fuel rest
          return (d ++ s, rest)
        else if isControl c then none
        else do
          let (s, rest) ← long? e quote escapes fuel rest
          return (c :: s, rest)

/-- A long text without the line break in front of it. -/
def unbroken (cs : List Char) : List Char := (newline? cs).getD cs

/-- The text in front, whatever its quotes. -/
def text? (e : Edition) (cs : List Char) : Option (List Char × List Char) :=
  match cs with
  | '"' :: '"' :: '"' :: rest => long? e '"' true (rest.length + 1) (unbroken rest)
  | '"' :: rest => basic? e (rest.length + 1) rest
  | '\x27' :: '\x27' :: '\x27' :: rest => long? e '\x27' false (rest.length + 1) (unbroken rest)
  | '\x27' :: rest => literal? rest
  | _ => none

end FuzzyForest.Toml
