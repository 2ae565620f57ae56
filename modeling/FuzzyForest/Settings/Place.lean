/-
Places in values.

A place is found from a table by a name and further steps: names in tables and positions in lists,
where negative positions count from the end.  `Place.ofName` reads the place that a name spells, and
`Datum.overlayPlace` lays a value over the one at a place, which is made if it is missing.
-/
import FuzzyForest.Settings.Datum

namespace FuzzyForest

/-- A step into a value. -/
inductive Place.Step
  /-- To the value of a name in a table. -/
  | name (s : String)
  /-- To the item at a position of a list. -/
  | position (i : Int)
deriving DecidableEq, Repr

/-- A place in a table. -/
structure Place where
  /-- The name in the table. -/
  root : String
  /-- The steps from there. -/
  steps : List Place.Step
deriving DecidableEq, Repr

/-! ### Reading -/

namespace Place

/-- Whether a character may stand in a name of a place. -/
def isNameChar (c : Char) : Bool := c.isAlphanum ∨ c = '_' ∨ c = '-'

/-- The rest after blanks. -/
def skip (cs : List Char) : List Char := cs.dropWhile fun c => c = ' ' ∨ c = '\t'

/-- The name in front. -/
def name? (cs : List Char) : Option (String × List Char) :=
  let name := cs.takeWhile isNameChar
  if name = [] then none else some (String.ofList name, cs.dropWhile isNameChar)

/-- The position in front, which must be a signed word, up to its bracket. -/
def position? (cs : List Char) : Option (Int × List Char) := do
  let (negative, cs) := match skip cs with
    | '-' :: cs => (true, cs)
    | cs => (false, cs)
  let digits := String.ofList (cs.takeWhile Char.isDigit)
  let i ← Decimal.integer? (if negative then "-" ++ digits else digits)
  match skip (cs.dropWhile Char.isDigit) with
  | ']' :: rest => return (i, rest)
  | _ => none

/-- The steps that characters spell. -/
def steps? : (fuel : Nat) → List Char → Option (List Step)
  | 0, _ => none
  | _ + 1, [] => some []
  | fuel + 1, '.' :: rest => do
    let (s, rest) ← name? rest
    return .name s :: (← steps? fuel rest)
  | fuel + 1, '[' :: rest => do
    let (i, rest) ← position? rest
    return .position i :: (← steps? fuel rest)
  | _ + 1, _ :: _ => none

/-- The place that a name spells: names between dots and positions in brackets, or only itself. -/
def ofName (name : String) : Place :=
  let place? : Option Place := do
    let (root, rest) ← name? name.toList
    return ⟨root, ← steps? (rest.length + 1) rest⟩
  place?.getD ⟨name, []⟩

end Place

/-! ### Values over each other -/

namespace Datum

/-- The named values of a table; anything else has none. -/
def members : Datum → Members
  | table ms => ms
  | _ => []

/-- The items of a list; anything else has none. -/
def items : Datum → List Datum
  | list ds => ds
  | _ => []

mutual

/-- A value over another one. -/
def overlay (old : Datum) : Datum → Datum
  | table ms => table (overlayAll old.members ms)
  | new => new

/-- Named values over others. -/
def overlayAll (old : Members) : Members → Members
  | [] => old
  | (name, new) :: rest =>
    overlayAll (assign old name (overlay ((old.lookup name).getD null) new)) rest

end

/-- Items with a value for one of them.  The list is filled up with nothing so that it has the
position: behind its end, or in front if the position counts from the end. -/
def changeItem (ds : List Datum) (i : Int) (f : Datum → Datum) : List Datum :=
  let before := (-(ds.length : Int) - i).toNat
  let ds := List.replicate before null ++ ds
  let k := if i < 0 then ((ds.length : Int) + i).toNat else i.toNat
  (ds ++ List.replicate (k + 1 - ds.length) null).modify k f

/-- A value over what stands some steps away. -/
def overlayAt (new : Datum) : List Place.Step → (old : Datum) → Datum
  | [], old => overlay old new
  | .name s :: steps, old =>
    table (assign old.members s (overlayAt new steps ((old.members.lookup s).getD null)))
  | .position i :: steps, old => list (changeItem old.items i (overlayAt new steps))

/-- A value over the one at a place in a table. -/
def overlayPlace (new : Datum) (p : Place) (old : Members) : Members :=
  assign old p.root (overlayAt new p.steps ((old.lookup p.root).getD null))

end Datum

end FuzzyForest
