/-
Writing settings.

Settings are written section by section in the order of their declaration.  What is left out is not
written, and a whole number that is no signed word cannot be.
-/
import FuzzyForest.Decimal.Layout
import FuzzyForest.Decimal.Reading
import FuzzyForest.Settings.Basic
import FuzzyForest.Toml.Quoted

namespace FuzzyForest

namespace Decimal

/-- The text of a number in a file of settings: never an exponent, and always a point. -/
def pointed : Layout where
  positional := none
  wholePoint := true
  exponentPlus := false
  tie := .awayFromZero
  undefined := "nan"
  infinite := "inf"

end Decimal

namespace Settings

/-- A written value. -/
abbrev Written := Except SettingsError String

/-- A whole number, which must be a signed word. -/
def writtenNatural (n : Nat) : Written :=
  if n ≤ Decimal.maxInteger then .ok (toString n) else .error .notWritable

/-- A truth value. -/
def writtenBoolean (b : Bool) : Written := .ok (if b then "true" else "false")

/-- A number. -/
def writtenNumber (x : Float) : Written := .ok (Decimal.pointed.write x)

/-- A text. -/
def writtenText (s : String) : Written := .ok (Toml.quoted s)

/-- The line of a setting. -/
def line (name : String) (w : Written) : Written := do return name ++ " = " ++ (← w) ++ "\n"

/-- The line of a setting that may be left out. -/
def lineOf? {α : Type} (name : String) (write : α → Written) : Option α → Written
  | some a => line name (write a)
  | none => .ok ""

/-- A section with its lines. -/
def writtenSection (name : String) (lines : List Written) : Written := do
  return "[" ++ name ++ "]\n" ++ String.join (← lines.mapM id)

/-- The section of the rule model. -/
def writtenModel (s : ModelSettings) : Written :=
  writtenSection "model" [
    line "allow_not" (writtenBoolean s.allowNot),
    line "nontrivial" (writtenBoolean s.nontrivial),
    line "max_instructions" (writtenNatural s.maxInstructions),
    line "past_input_limit" (writtenNatural s.pastInputLimit),
    line "past_output_limit" (writtenNatural s.pastOutputLimit),
    line "beta" (writtenNumber s.beta),
    line "fitness" (writtenText s.fitness.name)]

/-- The section of the evolution. -/
def writtenEvolution (s : EvolutionSettings) : Written :=
  writtenSection "evolution" [
    line "population_size" (writtenNatural s.populationSize),
    line "generations" (writtenNatural s.generations),
    lineOf? "max_evaluations" writtenNatural s.maxEvaluations,
    lineOf? "time_budget_secs" writtenNumber s.timeBudget,
    lineOf? "target_fitness" writtenNumber s.targetFitness,
    line "selection" (writtenText s.selection.name),
    line "migration" (writtenText s.migration.name),
    line "crossover_rate" (writtenNumber s.crossoverRate),
    line "mutation_rate" (writtenNumber s.mutationRate),
    line "direction" (writtenText s.direction.name),
    line "shuffle" (writtenBoolean s.shuffle),
    line "prevent_stagnation" (writtenBoolean s.preventStagnation),
    lineOf? "seed" writtenNatural s.seed,
    line "report_interval" (writtenNatural s.reportInterval)]

/-- The section of the data. -/
def writtenData (s : DataSettings) : Written :=
  writtenSection "data" [
    line "path" (writtenText s.path),
    line "targets" (writtenNatural s.targets),
    line "separator" (writtenText (String.singleton s.separator)),
    line "has_header" (writtenBoolean s.hasHeader),
    lineOf? "leave_out_idx" writtenNatural s.leaveOut]

/-- Settings as a text. -/
def written (s : Settings) : Written := do
  return "\n".intercalate [← writtenModel s.model, ← writtenEvolution s.evolution,
    ← writtenData s.data]

end Settings

end FuzzyForest
