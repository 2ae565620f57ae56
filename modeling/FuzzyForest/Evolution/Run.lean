/-
Runs.

A run draws and evaluates a population and breeds it step by step until there is a reason to stop.
A step that fails because offspring cannot be evaluated counts like any other; any other failure
ends the run.  `begun`, `stop?`, `bred` and `finished` are the parts of a run; `run` joins them for
a clock that is given beforehand.
-/
import FuzzyForest.Evolution.Event
import FuzzyForest.Population.Breeding

namespace FuzzyForest

namespace Evolution

/-- What a run needs to know. -/
structure Plan (ι : Type) where
  /-- What breeding needs to know about individuals. -/
  species : Species ι
  /-- A random individual. -/
  newborn : Draw ι
  rules : EvolutionSettings
  /-- What is noted of an event. -/
  notes : Event ι → List Note

/-- Where a run stands. -/
structure Stage (ι : Type) where
  population : Population ι
  /-- The number of breeding steps so far. -/
  generation : Nat
  /-- The number of evaluations so far. -/
  evaluations : Nat
  /-- The best fitness so far. -/
  best : Float

/-- What a run leaves behind besides its result: its events, the latest first, and the session. -/
abbrev Trail (ι : Type) := List (Event ι) × Session

/-- A computation that is a part of a run. -/
abbrev Evolving (ι α : Type) := Act (Trail ι) α

variable {ι α : Type}

/-- A computation that causes no events. -/
def quietly (m : Run α) : Evolving ι α := Act.within Prod.snd (fun s (events, _) => (events, s)) m

/-- Tells of an event. -/
def tell (plan : Plan ι) (e : Event ι) : Evolving ι Unit := fun (events, s) =>
  (.ok (), e :: events, { s with journal := (plan.notes e).reverse ++ s.journal })

/-! ### The start -/

/-- A number of random individuals. -/
def newborns (newborn : Draw ι) : Nat → Draw (List ι)
  | 0 => return []
  | n + 1 => do
    let x ← newborn
    return x :: (← newborns newborn n)

/-- A population of random individuals. -/
def firstPopulation (plan : Plan ι) : Run (Population ι) := do
  let drawn ← Run.draw (newborns plan.newborn plan.rules.populationSize)
  let (outcome, members) ← plan.species.evaluated drawn
  Act.lift outcome
  Act.lift (Population.ofMembers plan.species plan.rules.direction members)

/-- Tells of the present winner. -/
def tellWinner (plan : Plan ι) (generation : Nat) (p : Population ι) : Evolving ι Unit :=
  match p.winner? with
  | some winner => tell plan (.improvement generation winner)
  | none => Act.fail .outOfBounds

/-- The beginning of a run. -/
def begun (plan : Plan ι) : Evolving ι (Stage ι) := do
  tell plan (.start plan.rules.populationSize)
  let population ← quietly (firstPopulation plan)
  tellWinner plan 0 population
  return ⟨population, 0, population.size, population.bestFitness plan.species⟩

/-! ### The end -/

/-- Whether the best fitness is as good as the target. -/
def reachesTarget (plan : Plan ι) (st : Stage ι) : Bool :=
  plan.rules.targetFitness.any fun target =>
    !plan.rules.direction.isBetter target (st.population.bestFitness plan.species)

/-- The reason to stop after some seconds, if there is one. -/
def stop? (plan : Plan ι) (st : Stage ι) (elapsed : Float) : Option StopReason :=
  if reachesTarget plan st then some .targetFitness
  else if plan.rules.generations ≤ st.generation then some .generations
  else if plan.rules.maxEvaluations.any fun most => most ≤ st.evaluations then some .evaluations
  else if plan.rules.timeBudget.any fun budget => budget ≤ elapsed then some .timeBudget
  else none

/-- The end of a run. -/
def finished (plan : Plan ι) (st : Stage ι) (reason : StopReason) (elapsed : Float) :
    Evolving ι (Outcome ι) :=
  match st.population.winner? with
  | none => Act.fail .outOfBounds
  | some winner => do
    let outcome : Outcome ι :=
      ⟨winner, st.population.stats plan.species, st.generation, st.evaluations, reason, elapsed⟩
    tell plan (.complete outcome)
    return outcome

/-! ### Generations -/

/-- The population after a breeding step, which may have failed in an evaluation. -/
def stepped (plan : Plan ι) (generation : Nat) (p : Population ι) : Run (Population ι) := fun s =>
  let rules := plan.rules
  match Breeding.step plan.species rules rules.crossoverRate rules.mutationRate (p, s) with
  | (.ok (), p, s) => (.ok p, s)
  | (.error e, p, s) =>
    if e.isEvaluationFailure then
      (.ok p, { s with journal := .discarded generation e :: s.journal })
    else (.error e, s)

/-- Tells of the present winner if it is better than all before; the result is the best fitness. -/
def improved (plan : Plan ι) (generation : Nat) (p : Population ι) (best : Float) :
    Evolving ι Float :=
  let fitness := p.bestFitness plan.species
  if plan.rules.direction.isBetter fitness best then do
    tellWinner plan generation p
    return fitness
  else return best

/-- Whether the state is told of after a generation. -/
def isReported (rules : EvolutionSettings) (generation : Nat) : Bool :=
  0 < rules.reportInterval && generation % rules.reportInterval == 0

/-- The stage after the next generation. -/
def bred (plan : Plan ι) (st : Stage ι) : Evolving ι (Stage ι) := do
  let generation := st.generation + 1
  let evaluations := st.evaluations + 2
  let population ← quietly (stepped plan generation st.population)
  let best ← improved plan generation population st.best
  if isReported plan.rules generation then
    tell plan (.report generation (population.stats plan.species) evaluations)
  return ⟨population, generation, evaluations, best⟩

/-! ### Whole runs -/

/-- Breeds at most `left` more generations.  `clock` gives the seconds that have passed before a
generation. -/
def bredOn (plan : Plan ι) (clock : Nat → Float) :
    (left : Nat) → Stage ι → Evolving ι (Stage ι × StopReason)
  | 0, st => return (st, (stop? plan st (clock st.generation)).getD .generations)
  | left + 1, st => fun trail =>
    match stop? plan st (clock st.generation) with
    | some reason => (.ok (st, reason), trail)
    | none =>
      match bred plan st trail with
      | (.ok st, trail) => bredOn plan clock left st trail
      | (.error e, trail) => (.error e, trail)

/-- A whole run. -/
def run (plan : Plan ι) (clock : Nat → Float) : Evolving ι (Outcome ι) := do
  let st ← begun plan
  let (st, reason) ← bredOn plan clock plan.rules.generations st
  finished plan st reason (clock st.generation)

end Evolution

end FuzzyForest
