/-
Loading datasets.

A table becomes a dataset if all its columns are numeric, its targets are columns and it has a row.
Empty cells count as zero, which is noted.
-/
import FuzzyForest.Session
import FuzzyForest.Table.Reading

namespace FuzzyForest

namespace Table

/-- The dataset of a table. -/
def dataset (t : Table) (targets : Nat) : Except DatasetError (Dataset Float) :=
  Dataset.ofValues (t.rows.flatten.map Cell.value).toArray t.height t.width targets

/-- A table can become a dataset. -/
def check (t : Table) (targets : Nat) : Except TableError Unit := do
  t.checkNumeric
  t.checkTargets targets
  t.checkRows 1

/-- The notes on empty cells. -/
def emptyNotes (t : Table) : List Note :=
  match t.emptyFields with
  | [] => []
  | fields => [.emptyFields fields]

/-- The dataset of a table that was read from a file. -/
def load (s : DataSettings) (t : Table) : Run (Dataset Float) := do
  Act.lift ((t.check s.targets).mapError Error.table)
  Run.notes t.emptyNotes
  let ds ← Act.lift ((t.dataset s.targets).mapError Error.dataset)
  Run.note (.loaded t.height (t.inputNames s.targets).length (t.targetNames s.targets).length
    s.path)
  Run.note (.targetColumns (t.targetNames s.targets))
  return ds.withLeaveOut s.leaveOut

end Table

namespace DataSettings

/-- The character that separates fields.  Only its lowest byte counts. -/
def separatorByte (s : DataSettings) : UInt8 := s.separator.toNat.toUInt8

/-- The table that the settings name, given the text of its file if there is one. -/
def table (s : DataSettings) (text : Option String) : Except Error Table :=
  match text with
  | none => .error (.table (.missing s.path))
  | some text => (Table.ofText s.separatorByte s.hasHeader text).mapError Error.table

/-- The dataset that the settings name, given the text of its file if there is one. -/
def dataset (s : DataSettings) (text : Option String) : Run (Dataset Float) := do
  (← Act.lift (s.table text)).load s

end DataSettings

end FuzzyForest
