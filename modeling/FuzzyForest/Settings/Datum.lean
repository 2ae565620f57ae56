/-
Values in files of settings.

A `Datum` is what any of the formats of such files can say.  Sections are tables of named values,
or lists of values that are named by their positions.
-/
import FuzzyForest.Text.Json

namespace FuzzyForest

/-- A value in a file of settings. -/
inductive Datum
  | null
  | boolean (b : Bool)
  | integer (n : Int)
  | number (x : Float)
  | text (s : String)
  /-- A date, a time of day or both. -/
  | moment (s : String)
  | list (items : List Datum)
  | table (members : List (String × Datum))

/-- Named values, one for each name. -/
abbrev Members := List (String × Datum)

namespace Datum

/-- Named values with one more, which takes the place of an older one of its name. -/
def assign {α : Type} (members : List (String × α)) (name : String) (value : α) :
    List (String × α) :=
  if members.any fun (n, _) => n = name then
    members.map fun (n, old) => if n = name then (n, value) else (n, old)
  else members ++ [(name, value)]

/-! ### From JSON -/

mutual

/-- The value of a JSON text.  Of members of one name the last one counts.  Numbers must not be
beyond all numbers, and texts must be made of whole characters. -/
def ofJson? : Json → Option Datum
  | .null => some null
  | .bool b => some (boolean b)
  | .integer n => some (integer n)
  | .number x => if x.isFinite then some (number x) else none
  | .string s => s.map text
  | .array items => (ofItems? items).map list
  | .object members => (ofMembers? members []).map table

/-- The values of a list. -/
def ofItems? : List Json → Option (List Datum)
  | [] => some []
  | item :: rest => do
    let item ← ofJson? item
    return item :: (← ofItems? rest)

/-- The named values, after those in `done`. -/
def ofMembers? : List (Option String × Json) → (done : Members) → Option Members
  | [], done => some done
  | (name, item) :: rest, done => do
    let item ← ofJson? item
    ofMembers? rest (assign done (← name) item)

end

/-- The number of lists and objects that may be nested in each other in a JSON text. -/
def deepestJson : Nat := 127

/-- The named values in a JSON text. -/
def membersOfJson? (text : String) : Option Members := do
  let j ← Json.read text
  if deepestJson < j.depth then none
  else match ← ofJson? j with
    | table members => some members
    | _ => none

end Datum

end FuzzyForest
