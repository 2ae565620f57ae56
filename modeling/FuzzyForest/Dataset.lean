/-
Datasets.

A dataset is a row-major matrix whose last `targets` columns are the values to be estimated; the
columns before them are inputs.  One row may be left out of the scores.  `Dataset.ofValues` and
`Dataset.ofRows` accept exactly the shapes that the type allows, and `sigma` sums a target over the
rows that count.
-/
import FuzzyForest.Address
import FuzzyForest.Scalar

namespace FuzzyForest

/-- A matrix with input and target columns. -/
structure Dataset (α : Type) where
  /-- The values, row after row. -/
  values : Array α
  /-- The number of rows. -/
  records : Nat
  columns : Nat
  /-- The number of target columns, the last ones. -/
  targets : Nat
  /-- The row that does not count, if there is one. -/
  leaveOut : Option Nat
  size_values : values.size = records * columns
  targets_le : targets ≤ columns

/-- Why values form no dataset. -/
inductive DatasetError
  /-- The number of values is not that of the cells. -/
  | wrongSize (rows columns given : Nat)
  /-- There are so many cells that their number is no word and cannot be told from that of the
  values. -/
  | beyondWords (rows columns : Nat)
  /-- There are more targets than columns. -/
  | tooManyTargets (columns targets : Nat)
  /-- A row differs in width from the first one. -/
  | raggedRow (row width expected : Nat)
deriving DecidableEq, Repr

/-- The number of cells of a matrix as a word, which starts again from zero. -/
def cellCount (rows columns : Nat) : Nat := rows * columns % UInt64.size

/-- The description of the fault. -/
def DatasetError.message : DatasetError → String
  | wrongSize rows columns given =>
    "Expected " ++ toString (cellCount rows columns) ++ " values for a " ++ toString rows ++ "x"
      ++ toString columns ++ " dataset, got " ++ toString given
  | beyondWords rows columns =>
    "a " ++ toString rows ++ "x" ++ toString columns ++ " dataset has too many cells"
  | tooManyTargets columns targets =>
    "Dataset has " ++ toString columns ++ " columns but " ++ toString targets
      ++ " targets were requested"
  | raggedRow row width expected =>
    "Row " ++ toString row ++ " has " ++ toString width ++ " columns, expected "
      ++ toString expected

/-- What a terminal may read: the numbers of input columns and of targets. -/
structure Shape where
  inputs : Nat
  /-- The number of target columns. -/
  targets : Nat
deriving DecidableEq, Repr

namespace Dataset

variable {α : Type}

/-! ### Building -/

/-- The dataset of a row-major matrix. -/
def ofValues (values : Array α) (rows columns targets : Nat) : Except DatasetError (Dataset α) :=
  if hsize : values.size = rows * columns then
    if htargets : targets ≤ columns then
      .ok ⟨values, rows, columns, targets, none, hsize, htargets⟩
    else .error (.tooManyTargets columns targets)
  else if values.size = cellCount rows columns then
    if targets ≤ columns then .error (.beyondWords rows columns)
    else .error (.tooManyTargets columns targets)
  else .error (.wrongSize rows columns values.size)

/-- The position and width of the first row that is not `columns` wide. -/
def raggedRow? (columns : Nat) (rows : List (List α)) : Option (Nat × Nat) :=
  (rows.zipIdx.find? fun (row, _) => row.length ≠ columns).map fun (row, i) => (i, row.length)

/-- The dataset of a list of rows of one width. -/
def ofRows (rows : List (List α)) (targets : Nat) : Except DatasetError (Dataset α) :=
  let columns := (rows.head?.map List.length).getD 0
  match raggedRow? columns rows with
  | some (row, width) => .error (.raggedRow row width columns)
  | none => ofValues rows.flatten.toArray rows.length columns targets

/-- The dataset with another row left out, or none. -/
def withLeaveOut (ds : Dataset α) (row : Option Nat) : Dataset α := { ds with leaveOut := row }

/-! ### Reading -/

/-- The number of input columns. -/
def inputs (ds : Dataset α) : Nat := ds.columns - ds.targets

/-- The numbers of input and target columns. -/
def shape (ds : Dataset α) : Shape := ⟨ds.inputs, ds.targets⟩

/-- Where a row starts. -/
def rowStart (ds : Dataset α) (row : Nat) : Nat := Address.of ds.values.size (row * ds.columns)

/-- Whether a row can be read.  Rows of width zero always can. -/
def hasRow (ds : Dataset α) (row : Nat) : Bool := ds.rowStart row + ds.columns ≤ ds.values.size

/-- The value of a cell. -/
def cell? (ds : Dataset α) (row column : Nat) : Option α :=
  if column < ds.columns then ds.values[ds.rowStart row + column]? else none

/-- A row: its inputs, then its targets. -/
def row (ds : Dataset α) (i : Nat) : List α :=
  (ds.values.extract (i * ds.columns) ((i + 1) * ds.columns)).toList

/-- The targets of a row. -/
def targetValues (ds : Dataset α) (i : Nat) : List α := (ds.row i).drop ds.inputs

/-- The rows that count. -/
def counted (ds : Dataset α) : List Nat :=
  (List.range ds.records).filter fun row => some row ≠ ds.leaveOut

section Sums

variable [Scalar α]

/-- The value of a target in a row. -/
def target (ds : Dataset α) (row t : Nat) : α :=
  (ds.cell? row (ds.inputs + t)).getD (Scalar.ofNat 0)

/-- The sum of a target over the rows that count. -/
def sigma (ds : Dataset α) (t : Nat) : α :=
  Scalar.sum (ds.counted.map fun row => ds.target row t)

/-- The sums of all targets. -/
def sigmas (ds : Dataset α) : List α := (List.range ds.targets).map ds.sigma

end Sums

theorem inputs_add_targets (ds : Dataset α) : ds.inputs + ds.targets = ds.columns :=
  Nat.sub_add_cancel ds.targets_le

/-- The end of a row lies inside the matrix. -/
theorem rowEnd_le {ds : Dataset α} {row : Nat} (h : row < ds.records) :
    row * ds.columns + ds.columns ≤ ds.values.size := by
  rw [ds.size_values]
  calc row * ds.columns + ds.columns = (row + 1) * ds.columns := by rw [Nat.add_mul, Nat.one_mul]
    _ ≤ ds.records * ds.columns := Nat.mul_le_mul_right _ h

/-- A row of the matrix starts behind the rows before it. -/
theorem rowStart_eq {ds : Dataset α} {row : Nat} (h : row < ds.records) :
    ds.rowStart row = row * ds.columns := by
  rcases Nat.eq_zero_or_pos ds.columns with hc | hc
  · simp [rowStart, Address.of, hc]
  · exact Address.of_eq_self (by have := rowEnd_le h; omega)

/-- Every row of the matrix can be read. -/
theorem hasRow_of_lt {ds : Dataset α} {row : Nat} (h : row < ds.records) :
    ds.hasRow row = true := by
  simpa [hasRow, rowStart_eq h] using rowEnd_le h

/-- Every cell of the matrix has a value. -/
theorem cell?_eq_some {ds : Dataset α} {row column : Nat} (hrow : row < ds.records)
    (hcolumn : column < ds.columns) : ∃ x, ds.cell? row column = some x := by
  have hlt : row * ds.columns + column < ds.values.size := by
    have := rowEnd_le hrow
    omega
  exact ⟨ds.values[row * ds.columns + column], by simp [cell?, rowStart_eq hrow, hcolumn, hlt]⟩

end Dataset

end FuzzyForest
