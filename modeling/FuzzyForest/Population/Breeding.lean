/-
Breeding.

One step chooses two parents, recombines and mutates copies of them, evaluates these offspring and
offers each of them to the population, where it takes the place of a member that is strictly worse.
A failing evaluation discards both offspring.  When the best and the worst member have come close,
the worse half of the population can be mixed up.
-/
import FuzzyForest.Population.Basic

namespace FuzzyForest

/-- A computation on a population in a session. -/
abbrev Breeding (ι α : Type) := Act (Population ι × Session) α

namespace Breeding

variable {ι α : Type}

/-- The population. -/
def population : Breeding ι (Population ι) := fun (p, s) => (.ok p, p, s)

/-- A change of the population. -/
def modify (f : Population ι → Population ι) : Breeding ι Unit := fun (p, s) => (.ok (), f p, s)

/-- A computation that leaves the population alone. -/
def aside (m : Run α) : Breeding ι α := Act.within Prod.snd (fun s (p, _) => (p, s)) m

/-- A random draw. -/
def draw (d : Draw α) : Breeding ι α := aside (Run.draw d)

/-- A note in the journal. -/
def note (n : Note) : Breeding ι Unit := aside (Run.note n)

/-! ### Parents -/

/-- The number of spins for a second parent that differs from the first. -/
def spins : Nat := 10

/-- A place other than `other`, from at most `tries` spins; nothing if they all give `other`. -/
def distinctWithin (spin : Draw Nat) (other : Nat) : (tries : Nat) → Draw (Option Nat)
  | 0 => return none
  | tries + 1 => do
    let i ← spin
    if i ≠ other then return some i else distinctWithin spin other tries

/-- A place other than `other`, the next one if the wheel gives none. -/
def distinct (spin : Draw Nat) (size other : Nat) : Run Nat := do
  match ← Run.draw (distinctWithin spin other spins) with
  | some i => return i
  | none => do
    Run.note .noDistinctParent
    return (other + 1) % size

/-- The places of the parents. -/
def parents (sp : Species ι) (rules : EvolutionSettings) (p : Population ι) : Run (Nat × Nat) :=
  let spin := p.spin sp rules.direction
  match rules.selection with
  | .elitary => return (0, 1)
  | .roulette => do
    let first ← Run.draw spin
    return (first, ← distinct spin p.size first)
  | .semiElitary => do
    return (← distinct spin p.size 0, 0)

/-- Makes the offspring copies of the parents. -/
def select (sp : Species ι) (rules : EvolutionSettings) : Breeding ι (Nat × Nat) := do
  let p ← population
  let (first, second) ← aside (parents sp rules p)
  note (.selected first second)
  match p.members[first]?, p.members[second]? with
  | some son, some daughter => do
    modify fun p => { p with son := some son, daughter := some daughter }
    return (first, second)
  | _, _ => Act.fail .outOfBounds

/-! ### Offspring -/

/-- Crosses the offspring with a probability, if there are two. -/
def recombine (sp : Species ι) (rate : Float) : Breeding ι Unit := do
  let p ← population
  match p.son, p.daughter with
  | some son, some daughter =>
    if (← draw Draw.unit) < rate then do
      note .recombining
      let (son, daughter) ← aside (sp.crossed rate son daughter)
      modify fun p => { p with son := some son, daughter := some daughter }
  | _, _ => return ()

/-- An offspring after mutation, if there is one. -/
def mutatedChild (sp : Species ι) (rate : Float) : Option ι → Draw (Option ι)
  | none => return none
  | some child => do return some (← sp.mutated rate child)

/-- Mutates the offspring. -/
def mutate (sp : Species ι) (rate : Float) : Breeding ι Unit := do
  let p ← population
  let son ← draw (mutatedChild sp rate p.son)
  let daughter ← draw (mutatedChild sp rate p.daughter)
  modify fun p => { p with son, daughter }

/-- An offspring after evaluation, if there is one. -/
def evaluatedChild (sp : Species ι) : Option ι → Run (Option ι)
  | none => return none
  | some child => fun s =>
    match sp.evaluate (child, s) with
    | (.ok _, child, s) => (.ok (some child), s)
    | (.error e, _, s) => (.error e, s)

/-- Evaluates the offspring.  A failure discards both. -/
def evaluateChildren (sp : Species ι) : Breeding ι Unit := do
  let p ← population
  modify fun p => { p with son := none, daughter := none }
  let son ← aside (evaluatedChild sp p.son)
  let daughter ← aside (evaluatedChild sp p.daughter)
  modify fun p => { p with son, daughter }

/-! ### Migration -/

/-- Moves the member at a place to where it belongs. -/
def settle (sp : Species ι) (d : Direction) (position : Nat) : Breeding ι Nat := do
  match Ranking.settled? (Population.better sp d) (← population).members position with
  | some (members, place) => do
    modify fun p => { p with members }
    return place
  | none => Act.fail .outOfBounds

/-- Whether a child is no better than the best member. -/
def ties (sp : Species ι) (p : Population ι) (child : ι) : Bool :=
  p.winner?.any fun best => sp.fitness child == sp.fitness best || sp.isSame best child

/-- The place of the member that a child may replace. -/
def rival (sp : Species ι) (rules : EvolutionSettings) (p : Population ι) : Draw Nat :=
  match rules.migration with
  | .steadyState => return p.size - 1
  | .steadyStateReverseFitness => p.spin sp rules.direction.reversed

/-- Lets a child take the place of its rival if it is strictly better; the result is its place. -/
def migrateOne (sp : Species ι) (rules : EvolutionSettings) (child : ι) :
    Breeding ι (Option Nat) := do
  let p ← population
  if rules.preventStagnation && ties sp p child then do
    note .tiesBest
    return none
  else do
    let target ← draw (rival sp rules p)
    match p.members[target]? with
    | none => Act.fail .outOfBounds
    | some member =>
      if Population.better sp rules.direction child member then do
        modify fun p => { p with members := p.members.set target child }
        return some (← settle sp rules.direction target)
      else return none

/-- Offers a child to the population, if there is one. -/
def offer (sp : Species ι) (rules : EvolutionSettings) : Option ι → Breeding ι Unit
  | none => return ()
  | some child => do
    let _ ← migrateOne sp rules child

/-- Offers both offspring to the population. -/
def migrate (sp : Species ι) (rules : EvolutionSettings) : Breeding ι Unit := do
  let p ← population
  modify fun p => { p with son := none, daughter := none }
  offer sp rules p.son
  offer sp rules p.daughter

/-! ### Shuffling -/

/-- Best and worst fitness that are closer than this have converged. -/
def tolerance : Float := 1e-3

/-- Whether best and worst fitness have converged.  An undefined distance counts as none. -/
def hasConverged (sp : Species ι) (p : Population ι) : Bool :=
  !decide (tolerance ≤ (p.bestFitness sp - p.worstFitness sp).abs)

/-- Sorts the members. -/
def sort (sp : Species ι) (d : Direction) : Breeding ι Unit := do
  let p ← population
  modify (Population.ranked sp d)
  Act.lift (Population.checkSort sp d p)

/-- Mutants of the worse half. -/
def mutants (sp : Species ι) : Breeding ι (List ι) := do
  let p ← population
  note (.shuffling tolerance)
  draw (sp.mutatedAll 1.0 (p.members.drop (p.size / 2)))

/-- Mixes up the worse half of a population that has converged.  The members are sorted even if some
cannot be evaluated. -/
def shuffle (sp : Species ι) (d : Direction) : Breeding ι Bool := do
  let p ← population
  if hasConverged sp p then do
    let drawn ← mutants sp
    let (outcome, fresh) ← aside (sp.evaluated drawn)
    modify (Population.refreshed fresh)
    sort sp d
    Act.lift outcome
    return true
  else return false

/-! ### Steps -/

/-- One breeding step. -/
def step (sp : Species ι) (rules : EvolutionSettings) (crossoverRate mutationRate : Float) :
    Breeding ι Unit := do
  let _ ← select sp rules
  recombine sp crossoverRate
  mutate sp mutationRate
  evaluateChildren sp
  migrate sp rules
  if rules.shuffle then do
    let _ ← shuffle sp rules.direction

end Breeding

end FuzzyForest
