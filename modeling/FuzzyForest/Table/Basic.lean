/-
Tables of columns.

A table is what a file of separated values is read into: named columns, each of a kind that its
fields decide, and rows that have a cell for every column.
-/
namespace FuzzyForest

/-- The kind of a column. -/
inductive ColumnKind
  | integer
  | number
  | boolean
  | text
deriving DecidableEq, Repr

namespace ColumnKind

/-- The name of a kind in messages. -/
def title : ColumnKind → String
  | integer => "Int64"
  | number => "Float64"
  | boolean => "Boolean"
  | text => "String"

/-- Whether a column of this kind can be calculated with. -/
def isNumeric : ColumnKind → Bool
  | integer | number => true
  | boolean | text => false

end ColumnKind

/-- A cell of a table. -/
inductive Cell
  /-- There is nothing in the cell. -/
  | empty
  | number (value : Float)
  /-- Something that is no number. -/
  | other
deriving DecidableEq, Repr

/-- The number that a cell counts as. -/
def Cell.value : Cell → Float
  | number x => x
  | empty | other => 0.0

/-- The head of a column. -/
structure Column where
  name : String
  kind : ColumnKind
deriving DecidableEq, Repr

/-- A table. -/
structure Table where
  columns : List Column
  /-- The rows, each with a cell for every column. -/
  rows : List (List Cell)
deriving DecidableEq, Repr

/-- Why a file is no table, or a table no dataset. -/
inductive TableError
  | missing (path : String)
  /-- The text is no table. -/
  | unreadable
  /-- A column cannot be calculated with. -/
  | notNumeric (column : String) (kind : ColumnKind)
  /-- The target columns are none, or more than there are. -/
  | badTargets (targets columns : Nat)
  /-- There are too few rows. -/
  | tooFewRows (rows least : Nat)
deriving DecidableEq, Repr

/-- The description of the fault. -/
def TableError.message : TableError → String
  | missing path => "No such file or directory (os error 2): " ++ path
  | unreadable => "Failed to read CSV"
  | notNumeric column kind => "Column '" ++ column ++ "' must be numeric, found " ++ kind.title
  | badTargets targets columns =>
    "Cannot take " ++ toString targets ++ " target columns from " ++ toString columns ++ " columns"
  | tooFewRows rows least =>
    "Insufficient data: " ++ toString rows ++ " rows, minimum " ++ toString least ++ " required"

namespace Table

/-- The number of rows. -/
def height (t : Table) : Nat := t.rows.length

/-- The number of columns. -/
def width (t : Table) : Nat := t.columns.length

/-- The names of the columns. -/
def names (t : Table) : List String := t.columns.map Column.name

/-- The names of the input columns, those before the last `targets` ones. -/
def inputNames (t : Table) (targets : Nat) : List String := t.names.take (t.width - targets)

/-- The names of the last `targets` columns. -/
def targetNames (t : Table) (targets : Nat) : List String := t.names.drop (t.width - targets)

/-- The number of empty cells in a column. -/
def emptyCells (t : Table) (column : Nat) : Nat :=
  t.rows.countP fun row => row[column]? == some .empty

/-- The columns with empty cells and the number of these. -/
def emptyFields (t : Table) : List (String × Nat) :=
  t.columns.zipIdx.filterMap fun (column, i) =>
    let n := t.emptyCells i
    if n = 0 then none else some (column.name, n)

/-! ### Checks -/

/-- Every column can be calculated with. -/
def checkNumeric (t : Table) : Except TableError Unit :=
  match t.columns.find? fun column => !column.kind.isNumeric with
  | some column => .error (.notNumeric column.name column.kind)
  | none => .ok ()

/-- There is a target, and there are no more targets than columns. -/
def checkTargets (t : Table) (targets : Nat) : Except TableError Unit :=
  if targets = 0 ∨ t.width < targets then .error (.badTargets targets t.width) else .ok ()

/-- There are at least `least` rows. -/
def checkRows (t : Table) (least : Nat) : Except TableError Unit :=
  if t.height < least then .error (.tooFewRows t.height least) else .ok ()

end Table

end FuzzyForest
