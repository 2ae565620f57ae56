/-
Populations.

The members of a population are ranked by fitness, the best first, and up to two offspring are in
the making.  Breeding does not replace the population at once: every offspring may take the place
of one member.
-/
import FuzzyForest.Population.Ranking
import FuzzyForest.Population.Species
import FuzzyForest.Population.Wheel

namespace FuzzyForest

/-- Individuals in competition. -/
structure Population (ι : Type) where
  /-- The members, the best first. -/
  members : List ι
  /-- The offspring of the first parent. -/
  son : Option ι
  /-- The offspring of the second parent. -/
  daughter : Option ι
deriving Repr

namespace Population

variable {ι : Type}

/-- Whether one individual is strictly better than another. -/
def better (sp : Species ι) (d : Direction) (a b : ι) : Bool :=
  d.isBetter (sp.fitness a) (sp.fitness b)

/-- Whether the members stand in their order. -/
def isRanked (sp : Species ι) (d : Direction) (p : Population ι) : Bool :=
  Ranking.isRanked (better sp d) p.members

/-- The population with its members sorted. -/
def ranked (sp : Species ι) (d : Direction) (p : Population ι) : Population ι :=
  { p with members := sp.sorting.sorted (better sp d) p.members }

/-- Whether the members can be sorted. -/
def checkSort (sp : Species ι) (d : Direction) (p : Population ι) : Except Error Unit :=
  if sp.sorting.completes (better sp d) p.members then .ok () else .error .unsortable

/-- The population of evaluated individuals, of which there must be two. -/
def ofMembers (sp : Species ι) (d : Direction) (members : List ι) : Except Error (Population ι) :=
  if members.length < 2 then .error (.settings (.tooFewIndividuals members.length))
  else
    let p : Population ι := ⟨members, none, none⟩
    (checkSort sp d p).map fun _ => ranked sp d p

/-- The number of members. -/
def size (p : Population ι) : Nat := p.members.length

/-- The best member. -/
def winner? (p : Population ι) : Option ι := p.members.head?

/-- The fitness of a member, zero if there is none. -/
def fitnessOf (sp : Species ι) (member : Option ι) : Float := (member.map sp.fitness).getD 0.0

/-- The fitness of the first member. -/
def bestFitness (sp : Species ι) (p : Population ι) : Float := fitnessOf sp p.members.head?

/-- The fitness of the last member. -/
def worstFitness (sp : Species ι) (p : Population ι) : Float := fitnessOf sp p.members.getLast?

/-- The population with other individuals in the place of the worse half. -/
def refreshed (fresh : List ι) (p : Population ι) : Population ι :=
  { p with members := p.members.take (p.size / 2) ++ fresh }

/-- Best, worst and average fitness. -/
def stats (sp : Species ι) (p : Population ι) : PopulationStats where
  best := bestFitness sp p
  worst := worstFitness sp p
  average := Scalar.sum (p.members.map sp.fitness) / Scalar.ofNat p.size

/-- The place of a member that the wheel of fitness chooses. -/
def spin (sp : Species ι) (d : Direction) (p : Population ι) : Draw Nat :=
  Wheel.spin (Wheel.weights d (p.members.map sp.fitness))

@[simp]
theorem size_ranked (sp : Species ι) (d : Direction) (p : Population ι) :
    (ranked sp d p).size = p.size :=
  (sp.sorting.sorted_perm _ _).length_eq

end Population

end FuzzyForest
