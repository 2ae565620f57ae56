/-
Settings of a run.

They come in three sections: the rule model, the evolution and the data.  Each section has
defaults for everything, so that a file need only name what differs, and a check of its ranges;
`Settings.check` runs the three checks in this order.
-/
import FuzzyForest.Direction
import FuzzyForest.Scoring.Fitness

namespace FuzzyForest

/-- Why settings are refused. -/
inductive SettingsError
  /-- The budget of instructions is zero. -/
  | noInstructions
  /-- The weight of precision against recall is not a positive number. -/
  | badBeta
  | smallPopulation
  | badMutationRate
  | badCrossoverRate
  | badTimeBudget
  /-- There is nothing to estimate. -/
  | noTarget
  /-- The separator of columns is not an ASCII character. -/
  | badSeparator
  | notLoaded
  | notParsed
  | notWritable
  | notStored
  /-- There are too few individuals to breed. -/
  | tooFewIndividuals (given : Nat)
deriving DecidableEq, Repr

/-- The description of the fault. -/
def SettingsError.message : SettingsError → String
  | noInstructions => "Max instructions must be positive"
  | badBeta => "Beta must be a positive number"
  | smallPopulation => "Population size must be at least 2"
  | badMutationRate => "Mutation rate must be between 0 and 1"
  | badCrossoverRate => "Crossover rate must be between 0 and 1"
  | badTimeBudget => "Time budget must be positive"
  | noTarget => "At least one target column is required"
  | badSeparator => "Separator must be a single ASCII character"
  | notLoaded => "Failed to load config"
  | notParsed => "Failed to parse config"
  | notWritable => "Failed to serialize"
  | notStored => "Failed to write config"
  | tooFewIndividuals given =>
    "Steady-state GA needs at least 2 individuals, got " ++ toString given

/-! ### The rule model -/

/-- Settings of the rule model and its fitness. -/
structure ModelSettings where
  /-- The complement may be drawn. -/
  allowNot : Bool := true
  /-- A tree must not be a lone terminal. -/
  nontrivial : Bool := false
  /-- The length of a forest from which on its fitness is lowered. -/
  maxInstructions : Nat := 200
  /-- The horizon of lagged inputs, zero for none. -/
  pastInputLimit : Nat := 0
  /-- The horizon of lagged estimates, zero for none. -/
  pastOutputLimit : Nat := 0
  /-- The weight of precision against recall. -/
  beta : Float := 1.0
  /-- How error rates make a fitness. -/
  fitness : FitnessScheme := .fScore
deriving DecidableEq, Repr

/-- The ranges of the model settings. -/
def ModelSettings.check (s : ModelSettings) : Except SettingsError Unit :=
  if s.maxInstructions = 0 then .error .noInstructions
  else if !s.beta.isFinite || s.beta ≤ 0.0 then .error .badBeta
  else .ok ()

/-! ### The evolution -/

/-- How parents are chosen. -/
inductive Selection
  /-- Both on the wheel of fitness. -/
  | roulette
  /-- The two best. -/
  | elitary
  /-- The best and one on the wheel. -/
  | semiElitary
deriving DecidableEq, Repr

namespace Selection

/-- Every way. -/
def all : List Selection := [roulette, elitary, semiElitary]

/-- The name of a way in settings. -/
def name : Selection → String
  | roulette => "roulette"
  | elitary => "elitary"
  | semiElitary => "semi_elitary"

end Selection

/-- Whom an offspring may replace. -/
inductive Migration
  /-- The last of the order. -/
  | steadyState
  /-- One on the wheel of reversed fitness. -/
  | steadyStateReverseFitness
deriving DecidableEq, Repr

namespace Migration

/-- Every way. -/
def all : List Migration := [steadyState, steadyStateReverseFitness]

/-- The name of a way in settings. -/
def name : Migration → String
  | steadyState => "steady_state"
  | steadyStateReverseFitness => "steady_state_reverse_fitness"

end Migration

/-- Settings of the evolution. -/
structure EvolutionSettings where
  /-- The number of forests. -/
  populationSize : Nat := 100
  /-- The number of breeding steps after which a run ends. -/
  generations : Nat := 1000
  /-- The number of evaluations after which a run ends. -/
  maxEvaluations : Option Nat := none
  /-- The seconds after which a run ends. -/
  timeBudget : Option Float := none
  /-- The fitness at which a run ends. -/
  targetFitness : Option Float := none
  /-- How parents are chosen. -/
  selection : Selection := .semiElitary
  /-- Whom an offspring may replace. -/
  migration : Migration := .steadyState
  crossoverRate : Float := 0.8
  /-- The probability with which a node mutates. -/
  mutationRate : Float := 0.02
  /-- Whether a larger fitness is better. -/
  direction : Direction := .maximize
  /-- A population that has converged is mixed up. -/
  shuffle : Bool := false
  /-- An offspring as good as the best is dropped. -/
  preventStagnation : Bool := false
  seed : Option Nat := none
  /-- The number of steps between two reports, zero for no reports. -/
  reportInterval : Nat := 100
deriving DecidableEq, Repr

/-- The ranges of the evolution settings. -/
def EvolutionSettings.check (s : EvolutionSettings) : Except SettingsError Unit :=
  if s.populationSize < 2 then .error .smallPopulation
  else if s.mutationRate < 0.0 || 1.0 < s.mutationRate then .error .badMutationRate
  else if s.crossoverRate < 0.0 || 1.0 < s.crossoverRate then .error .badCrossoverRate
  else match s.timeBudget with
    | some budget =>
      if !budget.isFinite || budget ≤ 0.0 then .error .badTimeBudget else .ok ()
    | none => .ok ()

/-! ### The data -/

/-- Where the data come from and how their columns split. -/
structure DataSettings where
  path : String := "data.csv"
  /-- The number of target columns, the last ones. -/
  targets : Nat := 1
  /-- The character between two fields. -/
  separator : Char := ','
  /-- The first line names the columns. -/
  hasHeader : Bool := true
  /-- The row that does not count. -/
  leaveOut : Option Nat := none
deriving DecidableEq, Repr

/-- The ranges of the data settings. -/
def DataSettings.check (s : DataSettings) : Except SettingsError Unit :=
  if s.targets = 0 then .error .noTarget
  else if 128 ≤ s.separator.toNat then .error .badSeparator
  else .ok ()

/-! ### Together -/

/-- All settings. -/
structure Settings where
  model : ModelSettings := {}
  evolution : EvolutionSettings := {}
  data : DataSettings := {}
deriving DecidableEq, Repr

/-- The ranges of all settings. -/
def Settings.check (s : Settings) : Except SettingsError Unit := do
  s.model.check
  s.evolution.check
  s.data.check

/-- Settings in range pass the check of every section. -/
theorem Settings.check_eq_ok_iff (s : Settings) :
    s.check = .ok () ↔
      s.model.check = .ok () ∧ s.evolution.check = .ok () ∧ s.data.check = .ok () := by
  unfold Settings.check
  cases s.model.check <;> cases s.evolution.check <;> cases s.data.check <;>
    simp [bind, Except.bind]

end FuzzyForest
