/-
INI files.

A file gives texts to names, in sections that have headers in brackets.  `Ini.read` reads a file
into a table of sections; what stands in front of the first header belongs to the table itself.
-/
import FuzzyForest.Settings.Datum
import FuzzyForest.Text.Blank
import FuzzyForest.Text.Code

namespace FuzzyForest.Ini

/-! ### Parts of lines -/

/-- The characters that have an escape of one letter. -/
def shortEscapes : List (Char × Char) :=
  [('0', '\x00'), ('a', '\x07'), ('b', '\x08'), ('t', '\t'), ('r', '\r'), ('n', '\n')]

/-- What a backslash and the characters behind it stand for.  The end of a line stands for nothing
and every character that has no other meaning for itself. -/
def escaped? : List Char → Option (List Char × List Char)
  | [] => none
  | '\n' :: rest => some ([], rest)
  | 'x' :: rest => (Text.coded? 4 rest).map fun (c, rest) => ([c], rest)
  | c :: rest => some ([(shortEscapes.lookup c).getD c], rest)

/-- What stands in front of an end, which is not taken.  The end of the file is an end if
`last` says so. -/
def upTo? (isEnd : Char → Bool) (last : Bool) :
    (fuel : Nat) → List Char → Option (List Char × List Char)
  | 0, _ => none
  | _ + 1, [] => if last then some ([], []) else none
  | fuel + 1, c :: rest =>
    if isEnd c then some ([], c :: rest)
    else do
      let (said, rest) ← if c = '\\' then escaped? rest else some ([c], rest)
      let (more, rest) ← upTo? isEnd last fuel rest
      return (said ++ more, rest)

/-- Whether a character ends a line. -/
def isLineEnd (c : Char) : Bool := c = '\n' ∨ c = '\r'

/-- Whether a character stands between a name and its value. -/
def isAssignment (c : Char) : Bool := c = '=' ∨ c = ':'

/-- The rest of a value, of which `first` says that nothing is read: parts in quotes, and then what
is left of the line without the blanks around it. -/
def value? : (fuel : Nat) → (first : Bool) → List Char → Option (List Char × List Char)
  | 0, _, _ => none
  | _ + 1, _, [] => some ([], [])
  | fuel + 1, first, c :: rest =>
    if c = '"' ∨ c = '\x27' then do
      let (part, rest) ← upTo? (fun d => d = c) false (rest.length + 1) rest
      let (more, rest) ← value? fuel false (rest.drop 1)
      return (part ++ more, rest)
    else do
      let (part, rest) ← upTo? isLineEnd true (rest.length + 2) (c :: rest)
      return (if first then Text.trimmed part else Text.trimmedEnd part, rest)

/-! ### Files -/

/-- The rest after blanks, and whether it starts a line, where `start` says this of the present
place. -/
def skip (start : Bool) : List Char → Bool × List Char
  | [] => (start, [])
  | c :: rest => if Text.isBlank c then skip (c = '\n') rest else (start, c :: rest)

/-- The rest after blanks within a line. -/
def skipBlanks (cs : List Char) : List Char :=
  cs.dropWhile fun c => Text.isBlank c ∧ !isLineEnd c

/-- The rest after a line. -/
def skipLine (cs : List Char) : List Char := (cs.dropWhile fun c => c ≠ '\n').drop 1

/-- A name and its text in a table, or in a section of it. -/
def define (group : Option String) (name text : String) (done : Members) : Members :=
  match group with
  | none => Datum.assign done name (.text text)
  | some s =>
    let inner := match done.lookup s with
      | some (.table ms) => ms
      | _ => []
    Datum.assign done s (.table (Datum.assign inner name (.text text)))

/-- The table of the rest of a file, where `group` is the section that is open and `done` what has
been read.  A comment takes a line from its start.  A header that is repeated starts its section
anew. -/
def lines? : (fuel : Nat) → (start : Bool) → List Char → (group : Option String) →
    (done : Members) → Option Members
  | 0, _, _, _, _ => none
  | fuel + 1, start, cs, group, done =>
    match skip start cs with
    | (_, []) => some done
    | (start, c :: rest) =>
      if c = ';' ∨ c = '#' then
        if start then lines? fuel true (skipLine rest) group done else none
      else if c = '[' then do
        let (header, rest) ← upTo? (fun d => d = ']') false (rest.length + 1) rest
        let header := String.ofList (Text.trimmed header)
        lines? fuel false (rest.drop 1) (some header) (Datum.assign done header (.table []))
      else do
        let (name, rest) ← upTo? isAssignment false (rest.length + 2) (c :: rest)
        let name := Text.trimmed name
        let rest := skipBlanks (rest.drop 1)
        let (text, rest) ← value? (rest.length + 1) true rest
        if name = [] then none
        else lines? fuel false rest group (define group (String.ofList name) (String.ofList text) done)

/-- The table that a file describes. -/
def read (text : String) : Option Members :=
  let cs := text.toList
  lines? (cs.length + 1) true cs none []

end FuzzyForest.Ini
