/-
The surroundings of a run.

A `Session` holds what operations share while they work: the random source, the number of
instructions run so far and the journal.
-/
import FuzzyForest.Journal
import FuzzyForest.Random.Source

namespace FuzzyForest

/-- What operations share. -/
structure Session where
  /-- Where random words come from. -/
  source : Source
  /-- The number of instructions run so far. -/
  executed : Nat := 0
  /-- The notes taken so far, the latest first. -/
  journal : Journal := []

/-- A computation in a session. -/
abbrev Run (α : Type) := Act Session α

namespace Run

/-- A draw from the source of the session. -/
def draw {α : Type} (d : Draw α) : Run α :=
  Act.within Session.source (fun source s => { s with source }) d

/-- A note in the journal. -/
def note (n : Note) : Run Unit := Act.modify fun s => { s with journal := n :: s.journal }

/-- Notes in the journal, the first one first. -/
def notes (ns : List Note) : Run Unit :=
  Act.modify fun s => { s with journal := ns.reverse ++ s.journal }

end Run

end FuzzyForest
