/-
Reading tables.

The first line names the columns, unless they are numbered.  The kinds of the columns follow from
the first rows; a later field must be of the kind of its column.  A row may be too short, which
leaves its last cells empty, but not too long.
-/
import FuzzyForest.Table.Kind
import FuzzyForest.Text.Mark

namespace FuzzyForest

namespace Table

/-- The number of rows that decide the kinds of the columns. -/
def decidingRows : Nat := 100

/-- Names in which every repetition of a name is numbered; `seen` holds the names before. -/
def distinctNames (seen : List String) : List String → List String
  | [] => []
  | name :: rest =>
    let shown := match seen.count name with
      | 0 => name
      | n + 1 => name ++ "_duplicated_" ++ toString n
    shown :: distinctNames (name :: seen) rest

/-- The names of columns that have none. -/
def numberedNames (count : Nat) : List String :=
  (List.range count).map fun i => "column_" ++ toString (i + 1)

/-- The kind of a column, given the first records. -/
def kindOf (records : List (List Record.Field)) (column : Nat) : ColumnKind :=
  .ofFields (records.filterMap fun record => record[column]?)

/-- A line that decides on the columns.  A carriage return at its end is not alone on it. -/
def decidingLine (line : Encoded) : Encoded :=
  if 1 < line.length then Record.trimmed line else line

/-- The fields of a line that decides on the columns, at most `most` of them. -/
def decidingFields (separator : UInt8) (most : Nat) (line : Encoded) : List Record.Field :=
  Record.fields separator most (decidingLine line)

/-- All fields of a line that decides on the columns. -/
def allFields (separator : UInt8) (line : Encoded) : List Record.Field :=
  decidingFields separator (line.length + 1) line

/-- The columns with these names, given the lines that decide on their kinds. -/
def columnsOf (separator : UInt8) (names : List String) (lines : List Encoded) : List Column :=
  let records := (lines.take decidingRows).map (decidingFields separator names.length)
  names.zipIdx.map fun (name, i) => ⟨name, kindOf records i⟩

/-- The columns of a text that starts with their names.  A text of a single line counts as if that
had an end. -/
def namedColumns? (separator : UInt8) (bytes : Encoded) : Option (List Column) :=
  let named : List Encoded → Option (List Column)
    | [] => none
    | line :: lines =>
      let names := (allFields separator line).map fun f => String.ofList f.content.shown
      some (columnsOf separator (distinctNames [] names) lines)
  match Record.allLines bytes with
  | [_] =>
    if bytes.getLast? = some Record.lineBreak then named (Record.allLines bytes)
    else named (Record.allLines (bytes ++ [Record.lineBreak]))
  | lines => named lines

/-- The columns of a text without names, as many as the widest one of the first lines has. -/
def numberedColumns (separator : UInt8) (bytes : Encoded) : List Column :=
  let lines := Record.allLines bytes
  let widths := (lines.take decidingRows).map fun line => (allFields separator line).length
  columnsOf separator (numberedNames (widths.foldl max 0)) lines

/-- The columns of a text.  No two of them have the same name. -/
def columns? (separator : UInt8) (hasHeader : Bool) (bytes : Encoded) : Option (List Column) :=
  let bytes := Record.afterBreaks bytes
  if bytes = [] then none
  else do
    let columns ← if hasHeader then namedColumns? separator bytes
      else some (numberedColumns separator bytes)
    if (columns.map Column.name).Nodup then some columns else none

/-- The cells of a row; nothing if the row does not fit the columns. -/
def rowCells? : List ColumnKind → List Record.Field → Option (List Cell)
  | [], [] => some []
  | [], _ :: _ => none
  | _ :: kinds, [] => (rowCells? kinds []).map (.empty :: ·)
  | kind :: kinds, field :: fields => do
    return (← kind.cell? field.trimmed) :: (← rowCells? kinds fields)

/-- The bytes of a text that hold its rows.  With a single column, line breaks in front are lines of
their own. -/
def rowBytes (columns : List Column) (hasHeader : Bool) (bytes : Encoded) : Encoded :=
  let bytes := if columns.length = 1 then bytes else Record.afterBreaks bytes
  if hasHeader then Record.afterLine bytes else bytes

/-- The table that a text holds. -/
def ofText (separator : UInt8) (hasHeader : Bool) (text : String) : Except TableError Table :=
  let bytes := Encoded.ofChars (Text.unmarked text.toList)
  let table? : Option Table := do
    let columns ← columns? separator hasHeader bytes
    let records ← Record.ofText? separator columns.length (rowBytes columns hasHeader bytes)
    return ⟨columns, ← records.mapM (rowCells? (columns.map Column.kind))⟩
  match table? with
  | some t => .ok t
  | none => .error .unreadable

end Table

end FuzzyForest
