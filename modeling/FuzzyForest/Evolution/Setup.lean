/-
Setting up runs.

Settings in range and a table that fits them make the context in which forests are queried and
bred.
-/
import FuzzyForest.Evolution.Plan
import FuzzyForest.Table.Loading

namespace FuzzyForest

/-- The context that settings make, given the text of the file of their table if there is one. -/
def Settings.context (s : Settings) (table : Option String) : Run (Context Float) := do
  Act.lift (s.check.mapError Error.settings)
  let ds ← s.data.dataset table
  return Context.fuzzy ds s.model

end FuzzyForest
