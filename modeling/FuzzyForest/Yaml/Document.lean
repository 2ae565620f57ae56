/-
YAML documents.

The lines of a document are nested by their indentation: a table gives values to names, a list has
a dash in front of every item, and both can also be written in brackets.  `Yaml.read` reads the only
document of a text into a value.
-/
import FuzzyForest.Yaml.Scalar

namespace FuzzyForest.Yaml

/-! ### Lines -/

/-- The rest after the end of a line, in front of which only blanks and a comment stand. -/
def lineEnd? (cs : List Char) : Option (List Char) :=
  match skipSpace cs with
  | [] => some []
  | '\n' :: rest => some rest
  | c :: rest =>
    if c = '#' ∧ (cs.head?.any isSpace) then some ((rest.dropWhile fun d => d ≠ '\n').drop 1)
    else none

/-- The indentation of the next line that says something, and the rest from its first character
on. -/
def next : (fuel : Nat) → List Char → Nat × List Char
  | 0, cs => (0, cs)
  | fuel + 1, cs =>
    let line := cs.dropWhile fun c => c = ' '
    match skipSpace line with
    | '\n' :: rest => next fuel rest
    | '#' :: rest => next fuel ((rest.dropWhile fun c => c ≠ '\n').drop 1)
    | [] => (0, [])
    | _ => ((cs.takeWhile fun c => c = ' ').length, line)

/-- The next line that says something. -/
def nextLine (cs : List Char) : Nat × List Char := next (cs.length + 1) cs

/-- Whether an item of a list starts here. -/
def startsItem : List Char → Bool
  | '-' :: rest => atGap rest
  | _ => false

/-! ### Scalars over lines -/

/-- The rest of a plain scalar on the lines that are indented by more than `least`, as far as no
comment ends it. -/
def plainRest (least : Nat) : (fuel : Nat) → List Char → List Char × List Char
  | 0, cs => ([], cs)
  | fuel + 1, cs =>
    let blanks := cs.takeWhile fun c => isSpace c ∨ c = '\n'
    let rest := cs.dropWhile fun c => isSpace c ∨ c = '\n'
    let indent := (blanks.reverse.takeWhile fun c => c ≠ '\n').length
    if blanks.count '\n' = 0 ∨ indent ≤ least ∨ rest = [] ∨ rest.head? = some '#' then ([], cs)
    else
      let (line, rest) := plainLine false rest
      let (more, rest) := plainRest least fuel rest
      (folded [] (blanks.count '\n') ++ trimmedEnd line ++ more, rest)

/-- The plain scalar in front, over lines that are indented by more than `least`. -/
def plain? (least : Nat) (cs : List Char) : Option (String × List Char) :=
  if startsPlain false cs then
    let (line, rest) := plainLine false cs
    let (more, rest) := plainRest least (rest.length + 1) rest
    some (String.ofList (trimmedEnd line ++ more), rest)
  else none

/-- The lines that are indented by `indent`, without that, or blank, and the rest. -/
def indented (indent : Nat) : (fuel : Nat) → List Char → List (List Char) × List Char
  | 0, cs => ([], cs)
  | fuel + 1, cs =>
    let line := cs.takeWhile fun c => c ≠ '\n'
    let rest := (cs.dropWhile fun c => c ≠ '\n').drop 1
    if cs = [] then ([], [])
    else if (line.take indent).all (fun c => c = ' ') then
      let (lines, rest) := indented indent fuel rest
      (line.drop indent :: lines, rest)
    else ([], cs)

/-- How a scalar of whole lines ends. -/
inductive Chomping
  /-- Without a line break. -/
  | strip
  /-- With one line break. -/
  | clip
  /-- With all line breaks. -/
  | keep
deriving DecidableEq, Repr

/-- Lines that are joined by line breaks. -/
def joined : List (List Char) → List Char
  | [] => []
  | [line] => line
  | line :: lines => line ++ '\n' :: joined lines

/-- Lines that are joined by spaces, where `before` is the line in front.  Empty lines count as line
breaks, and so do the breaks around lines that start with a blank. -/
def flowing (before : List Char) : (empties : Nat) → List (List Char) → List Char
  | empties, [] => List.replicate empties '\n'
  | empties, [] :: lines => flowing before (empties + 1) lines
  | empties, line :: lines =>
    let kept := before.head?.any isSpace ∨ line.head?.any isSpace
    let between :=
      if kept then List.replicate (empties + 1) '\n'
      else if empties = 0 then [' ']
      else List.replicate empties '\n'
    between ++ line ++ flowing line 0 lines

/-- Lines that are joined by spaces. -/
def flowed : List (List Char) → List Char
  | [] => []
  | [] :: lines => '\n' :: flowed lines
  | line :: lines => line ++ flowing line 0 lines

/-- The signs behind the mark of a scalar of whole lines: how it ends and its own indentation. -/
def blockSigns : List Char → Chomping × Option Nat × List Char
  | c :: d :: rest =>
    if c = '-' ∨ c = '+' then
      let chomping := if c = '-' then Chomping.strip else .keep
      if '1' ≤ d ∧ d ≤ '9' then (chomping, some (d.toNat - '0'.toNat), rest)
      else (chomping, none, d :: rest)
    else if '1' ≤ c ∧ c ≤ '9' then
      let indent := some (c.toNat - '0'.toNat)
      if d = '-' then (.strip, indent, rest)
      else if d = '+' then (.keep, indent, rest)
      else (.clip, indent, d :: rest)
    else (.clip, none, c :: d :: rest)
  | ['-'] => (.strip, none, [])
  | ['+'] => (.keep, none, [])
  | rest => (.clip, none, rest)

/-- The scalar of whole lines behind its mark, in a node that is indented by `least`. -/
def block? (folds : Bool) (least : Nat) (cs : List Char) : Option (String × List Char) := do
  let (chomping, own, rest) := blockSigns cs
  let rest ← lineEnd? rest
  let shown := (rest.dropWhile fun c => c = ' ' ∨ c = '\n')
  let first := rest.length - shown.length
  let found := ((rest.take first).reverse.takeWhile fun c => c = ' ').length
  let indent := match own with
    | some n => least + n
    | none => max found (least + 1)
  let (lines, rest) := indented indent (rest.length + 1) rest
  let body := (lines.reverse.dropWhile fun line => line = []).reverse
  let text := if folds then flowed body else joined body
  let breaks := match chomping with
    | .strip => 0
    | .clip => if body = [] then 0 else 1
    | .keep => lines.length - body.length + (if body = [] then 0 else 1)
  return (String.ofList (text ++ List.replicate breaks '\n'), rest)

/-! ### Brackets -/

/-- The rest after blanks, comments and line breaks inside brackets. -/
def skipLines : (fuel : Nat) → List Char → List Char
  | 0, cs => cs
  | fuel + 1, cs =>
    match skipSpace cs with
    | '\n' :: rest => skipLines fuel rest
    | '#' :: rest =>
      if cs.head? = some '#' then '#' :: rest
      else skipLines fuel (rest.dropWhile fun c => c ≠ '\n')
    | rest => rest

/-- The rest after all blanks, comments and line breaks inside brackets. -/
def skipAll (cs : List Char) : List Char := skipLines (cs.length + 1) cs

/-- The scalar in front inside brackets: its text, and whether it is plain. -/
def innerScalar? (cs : List Char) : Option (String × Bool × List Char) :=
  match quoted? cs with
  | some (s, rest) => some (s, false, rest)
  | none =>
    if startsPlain true cs then
      let (line, rest) := plainLine true cs
      some (String.ofList (trimmedEnd line), true, rest)
    else none

/-- Named values with one more, whose name must be new. -/
def define? (done : Members) (name : String) (value : Datum) : Option Members :=
  if (done.lookup name).isSome then none else some (done ++ [(name, value)])

mutual

/-- The value in front inside brackets. -/
def inner? : (fuel : Nat) → List Char → Option (Datum × List Char)
  | 0, _ => none
  | fuel + 1, cs =>
    match cs with
    | '[' :: rest => (items? fuel (skipAll rest)).map fun (items, rest) => (.list items, rest)
    | '\x7b' :: rest => (members? fuel (skipAll rest) []).map fun (ms, rest) => (.table ms, rest)
    | cs => do
      let (s, plain, rest) ← innerScalar? cs
      return (← if plain then Scalar.value s else some (.text s), rest)

/-- The items of a list up to its bracket. -/
def items? : (fuel : Nat) → List Char → Option (List Datum × List Char)
  | 0, _ => none
  | fuel + 1, cs =>
    match cs with
    | ']' :: rest => some ([], rest)
    | cs => do
      let (item, rest) ← inner? fuel cs
      match skipAll rest with
      | ',' :: rest => do
        let (more, rest) ← items? fuel (skipAll rest)
        return (item :: more, rest)
      | ']' :: rest => return ([item], rest)
      | _ => none

/-- The members of a table up to its bracket, after those in `done`.  A name may have no value. -/
def members? : (fuel : Nat) → List Char → (done : Members) → Option (Members × List Char)
  | 0, _, _ => none
  | fuel + 1, cs, done =>
    match cs with
    | '\x7d' :: rest => some (done, rest)
    | cs => do
      let (s, plain, rest) ← innerScalar? cs
      let name ← if plain then Scalar.name? s else some s
      let (value, rest) ← match skipAll rest with
        | ':' :: rest =>
          match skipAll rest with
          | ',' :: rest => some (Datum.null, ',' :: rest)
          | '\x7d' :: rest => some (Datum.null, '\x7d' :: rest)
          | rest => inner? fuel rest
        | rest => some (Datum.null, rest)
      let done ← define? done name value
      match skipAll rest with
      | ',' :: rest => members? fuel (skipAll rest) done
      | '\x7d' :: rest => return (done, rest)
      | _ => none

end

/-! ### Indented lines -/

/-- The name in front, if it stands on one line and a colon follows it. -/
def name? (cs : List Char) : Option (String × List Char) := do
  let (name, rest) ← match quoted? cs with
    | some (s, rest) => some (s, rest)
    | none =>
      if startsPlain false cs then
        let (line, rest) := plainLine false cs
        (Scalar.name? (String.ofList (trimmedEnd line))).map fun s => (s, rest)
      else none
  match skipSpace rest with
  | ':' :: rest => if atGap rest then some (name, rest) else none
  | _ => none

/-- A value that starts on the present line, in a node that is indented by `least`, and the rest
from the next line on. -/
def value? (least : Nat) (cs : List Char) : Option (Datum × List Char) :=
  match cs with
  | '|' :: rest => (block? false least rest).map fun (s, rest) => (.text s, rest)
  | '>' :: rest => (block? true least rest).map fun (s, rest) => (.text s, rest)
  | cs =>
    if cs.head? = some '[' ∨ cs.head? = some '\x7b' then do
      let (value, rest) ← inner? (2 * cs.length + 2) cs
      return (value, ← lineEnd? rest)
    else match quoted? cs with
      | some (s, rest) => (lineEnd? rest).map fun rest => (.text s, rest)
      | none => do
        let (s, rest) ← plain? least cs
        return (← Scalar.value s, ← lineEnd? rest)

mutual

/-- The node whose first character stands at column `column`, in a node that is indented by
`least`. -/
def node? : (fuel least column : Nat) → List Char → Option (Datum × List Char)
  | 0, _, _, _ => none
  | fuel + 1, least, column, cs =>
    if startsItem cs then
      (sequence? fuel column cs).map fun (items, rest) => (.list items, rest)
    else match name? cs with
      | some _ => (mapping? fuel column cs []).map fun (ms, rest) => (.table ms, rest)
      | none => value? least cs

/-- The items of a list that is indented by `column`, the first of which starts here. -/
def sequence? : (fuel column : Nat) → List Char → Option (List Datum × List Char)
  | 0, _, _ => none
  | fuel + 1, column, cs => do
    let rest := cs.drop 1
    let inner := skipSpace rest
    let (item, rest) ← match lineEnd? rest with
      | some rest =>
        let (indent, line) := nextLine rest
        if line ≠ [] ∧ column < indent then node? fuel column indent line
        else some (.null, rest)
      | none => node? fuel column (column + 1 + (rest.length - inner.length)) inner
    let (indent, line) := nextLine rest
    if line ≠ [] ∧ indent = column ∧ startsItem line then do
      let (more, rest) ← sequence? fuel column line
      return (item :: more, rest)
    else if line ≠ [] ∧ column < indent then none
    else return ([item], rest)

/-- The members of a table that is indented by `column`, the first of which starts here, after those
in `done`.  A list in it may be indented as the table is. -/
def mapping? : (fuel column : Nat) → List Char → (done : Members) → Option (Members × List Char)
  | 0, _, _, _ => none
  | fuel + 1, column, cs, done => do
    let (name, rest) ← name? cs
    let (value, rest) ← match lineEnd? rest with
      | some rest =>
        let (indent, line) := nextLine rest
        if line ≠ [] ∧ column < indent then node? fuel column indent line
        else if indent = column ∧ startsItem line then
          (sequence? fuel column line).map fun (items, rest) => (.list items, rest)
        else some (.null, rest)
      | none => value? column (skipSpace rest)
    let done ← define? done name value
    let (indent, line) := nextLine rest
    if line ≠ [] ∧ indent = column then mapping? fuel column line done
    else if line ≠ [] ∧ column < indent then none
    else return (done, rest)

end

/-! ### Documents -/

/-- Characters without the carriage returns in front of line breaks. -/
def unified : List Char → List Char
  | '\r' :: '\n' :: rest => '\n' :: unified rest
  | '\r' :: rest => '\n' :: unified rest
  | c :: rest => c :: unified rest
  | [] => []

/-- The rest after a marker of a document, if a line starts with it. -/
def marker? (mark : List Char) (cs : List Char) : Option (List Char) :=
  let rest := cs.drop mark.length
  if cs.take mark.length = mark ∧ atGap rest then some rest else none

/-- The marker that starts a document. -/
def opening : List Char := ['-', '-', '-']

/-- The marker that ends a document. -/
def closing : List Char := ['.', '.', '.']

/-- The text in front of the next marker that stands at the start of a line, and the rest from that
on. -/
def upToMarker : (start : Bool) → List Char → List Char × List Char
  | _, [] => ([], [])
  | start, c :: rest =>
    if start ∧ ((marker? opening (c :: rest)).isSome ∨ (marker? closing (c :: rest)).isSome) then
      ([], c :: rest)
    else
      let (before, after) := upToMarker (c = '\n') rest
      (c :: before, after)

/-- The texts of the documents.  One without an opening marker must say something. -/
def documents : (fuel : Nat) → List Char → List (List Char)
  | 0, _ => []
  | fuel + 1, cs =>
    match marker? opening cs with
    | some rest =>
      let (before, after) := upToMarker false rest
      before :: documents fuel after
    | none =>
      match marker? closing cs with
      | some rest => documents fuel ((rest.dropWhile fun c => c ≠ '\n').drop 1)
      | none =>
        let (before, after) := upToMarker true cs
        let more := if cs = [] then [] else documents fuel after
        if (nextLine before).2 = [] then more else before :: more

/-- The value of a document. -/
def documentValue? (cs : List Char) : Option Datum :=
  let (indent, line) := nextLine cs
  if line = [] then some .null
  else do
    let (value, rest) ← node? (2 * cs.length + 2) 0 indent line
    if (nextLine rest).2 = [] then some value else none

/-- The value of a text that holds one document at most; without one it is an empty table. -/
def read (text : String) : Option Datum :=
  let cs := unified text.toList
  match documents (cs.length + 1) cs with
  | [] => some (.table [])
  | [document] => documentValue? document
  | _ => none

end FuzzyForest.Yaml
