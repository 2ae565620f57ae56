/-
TOML documents.

A document is a sequence of lines: headers of tables, and names with their values.  `Toml.read`
reads a document of some edition into a table.
-/
import FuzzyForest.Text.Mark
import FuzzyForest.Toml.Definition
import FuzzyForest.Toml.Text
import FuzzyForest.Toml.Word

namespace FuzzyForest.Toml

/-! ### Space -/

/-- The rest of a line after blanks. -/
def skip (cs : List Char) : List Char := cs.dropWhile fun c => c = ' ' ∨ c = '\t'

/-- Whether a character may stand in a comment. -/
def isCommentChar (c : Char) : Bool := !isControl c

/-- The rest after blanks and a comment. -/
def skipComment (cs : List Char) : List Char :=
  match skip cs with
  | '#' :: rest => rest.dropWhile isCommentChar
  | rest => rest

/-- The rest after the end of a line, which comes after blanks and a comment only. -/
def lineEnd? (cs : List Char) : Option (List Char) :=
  match skipComment cs with
  | [] => some []
  | rest => newline? rest

/-- The rest after blanks, comments and line breaks. -/
def skipLines : (fuel : Nat) → List Char → List Char
  | 0, cs => cs
  | fuel + 1, cs =>
    let rest := skipComment cs
    match newline? rest with
    | some rest => skipLines fuel rest
    | none => rest

/-! ### Names -/

/-- Whether a character may belong to a name without quotes. -/
def isBare (c : Char) : Bool := c.isAlphanum ∨ c = '_' ∨ c = '-'

/-- A part of a name. -/
def part? (e : Edition) (cs : List Char) : Option (String × List Char) :=
  match cs with
  | '"' :: rest => do
    let (s, rest) ← basic? e (rest.length + 1) rest
    return (String.ofList s, rest)
  | '\x27' :: rest => do
    let (s, rest) ← literal? rest
    return (String.ofList s, rest)
  | cs =>
    let name := cs.takeWhile isBare
    if name = [] then none else some (String.ofList name, cs.dropWhile isBare)

/-- A name of at most so many parts: those in front of its last dot, and the last one. -/
def parts? (e : Edition) : (most : Nat) → List Char → Option (List String × String × List Char)
  | 0, _ => none
  | most + 1, cs => do
    let (first, rest) ← part? e (skip cs)
    match skip rest with
    | '.' :: rest => do
      let (path, last, rest) ← parts? e most rest
      return (first :: path, last, rest)
    | rest => return ([], first, rest)

/-- A name, with the parts in front of its last dot. -/
def name? (e : Edition) (cs : List Char) : Option (List String × String × List Char) :=
  parts? e e.deepest cs

/-! ### Values -/

/-- The rest after what may stand between the parts of a table in braces. -/
def Edition.skip (e : Edition) (cs : List Char) : List Char :=
  if e.spreadTables then skipLines cs.length cs else Toml.skip cs

mutual

/-- The value in front, in which `room` lists and tables may stand in each other. -/
def value? (e : Edition) : (fuel room : Nat) → List Char → Option (Datum × List Char)
  | 0, _, _ => none
  | fuel + 1, room, cs =>
    match cs, room with
    | [], _ => none
    | '[' :: _, 0 => none
    | '[' :: rest, room + 1 => do
      let (items, rest) ← items? e fuel room rest
      return (.list items, rest)
    | '\x7b' :: _, 0 => none
    | '\x7b' :: rest, room + 1 =>
      match e.skip rest with
      | '\x7d' :: rest => some (.table [], rest)
      | rest => do
        let (entries, rest) ← members? e fuel room rest []
        return (.table (data entries), rest)
    | c :: rest, _ =>
      if c = '"' ∨ c = '\x27' then do
        let (s, rest) ← text? e (c :: rest)
        return (.text (String.ofList s), rest)
      else do
        let (word, rest) := firstWord (c :: rest)
        return (← ofWord? e word, rest)

/-- The items of a list up to its end. -/
def items? (e : Edition) : (fuel room : Nat) → List Char → Option (List Datum × List Char)
  | 0, _, _ => none
  | fuel + 1, room, cs =>
    match skipLines cs.length cs with
    | ']' :: rest => some ([], rest)
    | cs => do
      let (item, rest) ← value? e fuel room cs
      match skipLines rest.length rest with
      | ',' :: rest => do
        let (more, rest) ← items? e fuel room rest
        return (item :: more, rest)
      | ']' :: rest => return ([item], rest)
      | _ => none

/-- The members of a table in braces up to its end, after those in `done`. -/
def members? (e : Edition) : (fuel room : Nat) → List Char → (done : Entries) →
    Option (Entries × List Char)
  | 0, _, _, _ => none
  | fuel + 1, room, cs, done => do
    let (through, name, rest) ← name? e cs
    match e.skip rest with
    | '=' :: rest => do
      let (value, rest) ← value? e fuel room (e.skip rest)
      let done ← done.define [] through name value
      match e.skip rest with
      | ',' :: rest =>
        match e.skip rest with
        | '\x7d' :: rest => if e.spreadTables then some (done, rest) else none
        | rest => members? e fuel room rest done
      | '\x7d' :: rest => return (done, rest)
      | _ => none
    | _ => none

end

/-! ### Lines -/

/-- The lines of a document, where `path` leads to the table that is open. -/
def lines? (e : Edition) :
    (fuel : Nat) → List Char → (path : List String) → Entries → Option Entries
  | 0, _, _, _ => none
  | fuel + 1, cs, path, es =>
    match skip cs with
    | [] => some es
    | '[' :: '[' :: rest => do
      let (path, name, rest) ← name? e rest
      let es ← es.openItem path name
      match rest with
      | ']' :: ']' :: rest => do lines? e fuel (← lineEnd? rest) (path ++ [name]) es
      | _ => none
    | '[' :: rest => do
      let (path, name, rest) ← name? e rest
      let es ← es.openTable path name
      match rest with
      | ']' :: rest => do lines? e fuel (← lineEnd? rest) (path ++ [name]) es
      | _ => none
    | c :: rest =>
      if c = '#' ∨ c = '\n' ∨ c = '\r' then do lines? e fuel (← lineEnd? (c :: rest)) path es
      else do
        let (through, name, rest) ← name? e (c :: rest)
        match rest with
        | '=' :: rest => do
          let (value, rest) ← value? e (2 * rest.length + 2) e.deepest (skip rest)
          let es ← es.define path through name value
          lines? e fuel (← lineEnd? rest) path es
        | _ => none

/-- The table that a document describes. -/
def read (e : Edition) (text : String) : Option (List (String × Datum)) :=
  let cs := Text.unmarked text.toList
  (lines? e (cs.length + 1) cs [] []).map data

end FuzzyForest.Toml
