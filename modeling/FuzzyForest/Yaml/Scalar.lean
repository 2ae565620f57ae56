/-
Scalars in YAML.

A scalar in quotes is a text.  A plain one may also be a number, a truth value or nothing, which
`Scalar.value` decides.  A line break within a scalar counts as a space, and empty lines as line
breaks.
-/
import FuzzyForest.Settings.Datum
import FuzzyForest.Text.Code

namespace FuzzyForest.Yaml

/-! ### Characters -/

/-- Whether a character separates words on a line. -/
def isSpace (c : Char) : Bool := c = ' ' ∨ c = '\t'

/-- The rest of a line after blanks. -/
def skipSpace (cs : List Char) : List Char := cs.dropWhile isSpace

/-- Whether a word ends in front of these characters. -/
def atGap : List Char → Bool
  | [] => true
  | c :: _ => isSpace c ∨ c = '\n'

/-- The rest of a line without blanks at its end. -/
def trimmedEnd (cs : List Char) : List Char := (cs.reverse.dropWhile isSpace).reverse

/-! ### Line breaks in scalars -/

/-- What blanks and line breaks within a scalar stand for, given the number of line breaks. -/
def folded (blanks : List Char) : (breaks : Nat) → List Char
  | 0 => blanks
  | 1 => [' ']
  | breaks + 1 => List.replicate breaks '\n'

/-- The blanks and line breaks in front as far as they are within a scalar, and the rest. -/
def gap (cs : List Char) : List Char × List Char :=
  let isGap (c : Char) : Bool := isSpace c ∨ c = '\n'
  let blanks := cs.takeWhile isGap
  (folded blanks (blanks.count '\n'), cs.dropWhile isGap)

/-! ### Quotes -/

/-- The characters that have an escape of one letter. -/
def shortEscapes : List (Char × Char) :=
  [('0', '\x00'), ('a', '\x07'), ('b', '\x08'), ('t', '\t'), ('\t', '\t'), ('n', '\n'),
    ('v', '\x0b'), ('f', '\x0c'), ('r', '\r'), ('e', '\x1b'), (' ', ' '), ('"', '"'), ('/', '/'),
    ('\\', '\\'), ('N', '\u0085'), ('_', '\u00a0'), ('L', '\u2028'), ('P', '\u2029')]

/-- What a backslash and the characters behind it stand for.  The end of a line stands for nothing,
and so do the blanks of the next one. -/
def escaped? : List Char → Option (List Char × List Char)
  | '\n' :: rest => some ([], skipSpace rest)
  | 'x' :: rest => (Text.coded? 2 rest).map fun (c, rest) => ([c], rest)
  | 'u' :: rest => (Text.coded? 4 rest).map fun (c, rest) => ([c], rest)
  | 'U' :: rest => (Text.coded? 8 rest).map fun (c, rest) => ([c], rest)
  | c :: rest => (shortEscapes.lookup c).map fun d => ([d], rest)
  | [] => none

/-- The rest of a scalar in double quotes. -/
def double? : (fuel : Nat) → List Char → Option (List Char × List Char)
  | 0, _ => none
  | _ + 1, [] => none
  | fuel + 1, c :: rest =>
    if c = '"' then some ([], rest)
    else do
      let (said, rest) ←
        if c = '\\' then escaped? rest
        else if isSpace c ∨ c = '\n' then some (gap (c :: rest))
        else some ([c], rest)
      let (more, rest) ← double? fuel rest
      return (said ++ more, rest)

/-- The rest of a scalar in single quotes, where a quote is written twice. -/
def single? : (fuel : Nat) → List Char → Option (List Char × List Char)
  | 0, _ => none
  | _ + 1, [] => none
  | fuel + 1, '\x27' :: '\x27' :: rest => do
    let (more, rest) ← single? fuel rest
    return ('\x27' :: more, rest)
  | _ + 1, '\x27' :: rest => some ([], rest)
  | fuel + 1, c :: rest => do
    let (said, rest) := if isSpace c ∨ c = '\n' then gap (c :: rest) else ([c], rest)
    let (more, rest) ← single? fuel rest
    return (said ++ more, rest)

/-- The scalar in front, if it is in quotes. -/
def quoted? : List Char → Option (String × List Char)
  | '"' :: rest => (double? (rest.length + 1) rest).map fun (s, rest) => (String.ofList s, rest)
  | '\x27' :: rest => (single? (rest.length + 1) rest).map fun (s, rest) => (String.ofList s, rest)
  | _ => none

/-! ### Plain scalars -/

/-- The characters that end a plain scalar within brackets. -/
def brackets : List Char := [',', '[', ']', '\x7b', '\x7d']

/-- The characters that no plain scalar starts with. -/
def indicators : List Char :=
  brackets ++ ['#', '&', '*', '!', '|', '>', '\x27', '"', '%', '@', '\x60']

/-- Whether a plain scalar starts here, where `inside` brackets some characters more end it. -/
def startsPlain (inside : Bool) : List Char → Bool
  | [] => false
  | c :: rest =>
    if c = '-' ∨ c = '?' ∨ c = ':' then
      !atGap rest ∧ !(inside ∧ rest.head?.any (· ∈ brackets))
    else c ∉ indicators ∧ !atGap [c]

/-- The characters of a plain scalar on this line, and the rest.  It ends in front of a comment, of
a colon at the end of a word and, inside brackets, of a bracket or comma. -/
def plainLine (inside : Bool) : List Char → List Char × List Char
  | [] => ([], [])
  | c :: rest =>
    let ends : Bool :=
      c = '\n' ∨ (isSpace c ∧ (skipSpace rest).head? = some '#')
        ∨ (c = ':' ∧ (atGap rest ∨ (inside ∧ rest.head?.any (· ∈ brackets))))
        ∨ (inside ∧ c ∈ brackets)
    if ends then ([], c :: rest)
    else
      let (line, after) := plainLine inside rest
      (c :: line, after)

namespace Scalar

/-- A whole number in a base of at most sixteen, which must be a signed word. -/
def based? (base : Nat) (cs : List Char) : Option Int :=
  let (negative, digits) := match cs with
    | '-' :: cs => (true, cs)
    | '+' :: cs => (false, cs)
    | cs => (false, cs)
  if digits = [] then none
  else do
    let n : Int := (← Text.based? base digits : Nat)
    let n := if negative then -n else n
    if n ≤ Decimal.maxInteger ∧ -(Decimal.maxInteger : Int) - 1 ≤ n then some n else none

/-- The whole number that characters spell, if their beginning shows in which way. -/
def marked? : List Char → Option Int
  | '0' :: 'x' :: cs => based? 16 cs
  | '0' :: 'o' :: cs => based? 8 cs
  | '+' :: cs => based? 10 cs
  | _ => none

/-- The names of values that are no numbers. -/
def specials : List String :=
  [".inf", ".Inf", ".INF", "+.inf", "+.Inf", "+.INF", "-.inf", "-.Inf", "-.INF", ".nan", ".NaN",
    ".NAN"]

/-- The value of a plain scalar.  There is none for those that are no numbers. -/
def value (text : String) : Option Datum :=
  let cs := text.toList
  match marked? cs with
  | some n => some (.integer n)
  | none =>
    if text ∈ ["", "~", "null"] then some .null
    else if text = "true" then some (.boolean true)
    else if text = "false" then some (.boolean false)
    else if text ∈ specials then none
    else match Decimal.integer? text with
      | some n => some (.integer n)
      | none =>
        match if cs.any Char.isDigit then Decimal.number? text else none with
        | some x => some (.number x)
        | none => some (.text text)

/-- The name that a plain scalar is in a table. -/
def name? (text : String) : Option String :=
  match value text with
  | some (.integer n) => some (toString n)
  | some .null => none
  | _ => some text

end Scalar

end FuzzyForest.Yaml
