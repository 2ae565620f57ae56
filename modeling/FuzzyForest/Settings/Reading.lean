/-
Reading settings.

A file names sections and each section names settings; what is not named keeps its default, and
names that mean nothing are passed over.  `Dialect.settings?` reads the settings of a file.
-/
import FuzzyForest.Settings.Basic
import FuzzyForest.Settings.Dialect

namespace FuzzyForest

namespace Members

variable {α : Type}

/-- A setting, which keeps its default if it is not named. -/
def get? (ms : Members) (name : String) (read? : Datum → Option α) (default : α) : Option α :=
  match ms.lookup name with
  | some d => read? d
  | none => some default

/-- A choice by its name. -/
def choice? (ms : Members) (d : Dialect) (name : String) (all : List α) (nameOf : α → String)
    (default : α) : Option α :=
  ms.get? name (fun v => do
    let chosen ← d.choice? v
    all.find? fun a => nameOf a = chosen) default

/-- A setting that can be left out. -/
def optional? (ms : Members) (d : Dialect) (name : String) (read? : Datum → Option α) :
    Option (Option α) :=
  ms.get? name (fun v => if d.isLeftOut v then some none else (read? v).map some) none

end Members

namespace ModelSettings

/-- The names of the settings. -/
def names : List String :=
  ["allow_not", "nontrivial", "max_instructions", "past_input_limit", "past_output_limit", "beta",
    "fitness"]

/-- The settings of a section. -/
def ofMembers? (d : Dialect) (ms : Members) : Option ModelSettings := do
  let s : ModelSettings := {}
  return {
    allowNot := ← ms.get? "allow_not" d.boolean? s.allowNot
    nontrivial := ← ms.get? "nontrivial" d.boolean? s.nontrivial
    maxInstructions := ← ms.get? "max_instructions" d.natural? s.maxInstructions
    pastInputLimit := ← ms.get? "past_input_limit" d.natural? s.pastInputLimit
    pastOutputLimit := ← ms.get? "past_output_limit" d.natural? s.pastOutputLimit
    beta := ← ms.get? "beta" d.number? s.beta
    fitness := ← ms.choice? d "fitness" FitnessScheme.all FitnessScheme.name s.fitness }

end ModelSettings

namespace EvolutionSettings

/-- The names of the settings. -/
def names : List String :=
  ["population_size", "generations", "max_evaluations", "time_budget_secs", "target_fitness",
    "selection", "migration", "crossover_rate", "mutation_rate", "direction", "shuffle",
    "prevent_stagnation", "seed", "report_interval"]

/-- The settings of a section. -/
def ofMembers? (d : Dialect) (ms : Members) : Option EvolutionSettings := do
  let s : EvolutionSettings := {}
  return {
    populationSize := ← ms.get? "population_size" d.natural? s.populationSize
    generations := ← ms.get? "generations" d.natural? s.generations
    maxEvaluations := ← ms.optional? d "max_evaluations" d.natural?
    timeBudget := ← ms.optional? d "time_budget_secs" d.number?
    targetFitness := ← ms.optional? d "target_fitness" d.number?
    selection := ← ms.choice? d "selection" Selection.all Selection.name s.selection
    migration := ← ms.choice? d "migration" Migration.all Migration.name s.migration
    crossoverRate := ← ms.get? "crossover_rate" d.number? s.crossoverRate
    mutationRate := ← ms.get? "mutation_rate" d.number? s.mutationRate
    direction := ← ms.choice? d "direction" Direction.all Direction.name s.direction
    shuffle := ← ms.get? "shuffle" d.boolean? s.shuffle
    preventStagnation := ← ms.get? "prevent_stagnation" d.boolean? s.preventStagnation
    seed := ← ms.optional? d "seed" d.natural?
    reportInterval := ← ms.get? "report_interval" d.natural? s.reportInterval }

end EvolutionSettings

namespace DataSettings

/-- The names of the settings. -/
def names : List String := ["path", "targets", "separator", "has_header", "leave_out_idx"]

/-- The settings of a section. -/
def ofMembers? (d : Dialect) (ms : Members) : Option DataSettings := do
  let s : DataSettings := {}
  return {
    path := ← ms.get? "path" d.text? s.path
    targets := ← ms.get? "targets" d.natural? s.targets
    separator := ← ms.get? "separator" d.char? s.separator
    hasHeader := ← ms.get? "has_header" d.boolean? s.hasHeader
    leaveOut := ← ms.optional? d "leave_out_idx" d.natural? }

end DataSettings

namespace Dialect

/-- The settings of a file. -/
def settings? (d : Dialect) (file : Members) : Option Settings := do
  return {
    model := ← file.get? "model" (fun v => do
      ModelSettings.ofMembers? d (← d.members? ModelSettings.names v)) {}
    evolution := ← file.get? "evolution" (fun v => do
      EvolutionSettings.ofMembers? d (← d.members? EvolutionSettings.names v)) {}
    data := ← file.get? "data" (fun v => do
      DataSettings.ofMembers? d (← d.members? DataSettings.names v)) {} }

end Dialect

end FuzzyForest
