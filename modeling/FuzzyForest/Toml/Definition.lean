/-
Tables of a TOML document.

A table can be opened by its own header, be implied by the header of a table inside it, or come
from a dotted name.  Only an implied table can still be opened, only a dotted one can be extended by
dotted names, and no name is given twice.
-/
import FuzzyForest.Settings.Datum

namespace FuzzyForest.Toml

/-- Where a table comes from. -/
inductive Origin
  /-- It has a header, or is the document itself. -/
  | header
  /-- A header names a table inside it. -/
  | implied
  /-- A dotted name goes through it. -/
  | dotted
deriving DecidableEq, Repr

/-- What a name in a table stands for. -/
inductive Node
  /-- A value, which cannot be extended. -/
  | leaf (value : Datum)
  | table (origin : Origin) (entries : List (String × Node))
  /-- A list of tables, of which the last one can be extended. -/
  | tables (items : List (List (String × Node)))

/-- The names of a table and what they stand for. -/
abbrev Entries := List (String × Node)

namespace Entries

/-- Changes the table at the end of a path, given its origin.  Tables of the path that are missing
are made with the origin `made`, and `pass` says through which ones the path may go. -/
def change (made : Origin) (pass : Origin → Bool) (f : Origin → Entries → Option Entries) :
    (path : List String) → Origin → Entries → Option Entries
  | [], o, es => f o es
  | name :: path, _, es =>
    match es.lookup name with
    | none => do
      return es ++ [(name, .table made (← change made pass f path made []))]
    | some (.leaf _) => none
    | some (.table o inner) =>
      if pass o then do
        return Datum.assign es name (.table o (← change made pass f path o inner))
      else none
    | some (.tables items) =>
      match items.getLast? with
      | some last => do
        let last ← change made pass f path .header last
        return Datum.assign es name (.tables (items.dropLast ++ [last]))
      | none => none

/-- Opens a table by its header. -/
def openTable (path : List String) (name : String) (es : Entries) : Option Entries :=
  change .implied (fun _ => true) (fun _ es =>
    match es.lookup name with
    | none => some (es ++ [(name, .table .header [])])
    | some (.table .implied inner) => some (Datum.assign es name (.table .header inner))
    | some _ => none) path .header es

/-- Opens another table of a list by its header. -/
def openItem (path : List String) (name : String) (es : Entries) : Option Entries :=
  change .implied (fun _ => true) (fun _ es =>
    match es.lookup name with
    | none => some (es ++ [(name, .tables [[]])])
    | some (.tables items) => some (Datum.assign es name (.tables (items ++ [[]])))
    | some _ => none) path .header es

/-- Gives a value to a name, which is reached from the table at `path` through the tables
`through`. -/
def define (path through : List String) (name : String) (value : Datum) (es : Entries) :
    Option Entries :=
  let last (o : Origin) (es : Entries) : Option Entries :=
    if (through = [] ∧ o = .dotted) ∨ (through ≠ [] ∧ o ≠ .dotted) then none
    else if (es.lookup name).isSome then none
    else some (es ++ [(name, .leaf value)])
  change .implied (fun _ => true) (change .dotted (fun o => o ≠ .header) last through) path .header
    es

end Entries

/-! ### Values -/

mutual

/-- The value that a name stands for. -/
def Node.datum : Node → Datum
  | .leaf value => value
  | .table _ entries => .table (data entries)
  | .tables items => .list (itemData items)

/-- The named values of a table. -/
def data : List (String × Node) → List (String × Datum)
  | [] => []
  | (name, node) :: rest => (name, node.datum) :: data rest

/-- The tables of a list. -/
def itemData : List (List (String × Node)) → List Datum
  | [] => []
  | entries :: rest => .table (data entries) :: itemData rest

end

end FuzzyForest.Toml
