/-
Species that evaluate alike.

Breeding looks at individuals through their species only.  If another evaluation has the same
results for all individuals of a closed species, populations of such individuals are bred alike,
step by step, and so are whole runs.  A run without a time budget does not depend on its clock
either, except for the seconds that it reports.
-/
import FuzzyForest.Proofs.ClosedRun

namespace FuzzyForest

open Act (Returns)

variable {ι α β : Type}

/-- The species with another evaluation. -/
def Species.withEvaluate (sp : Species ι) (evaluate : Act (ι × Session) Float) : Species ι :=
  { sp with evaluate }

/-- Whatever is mutated does not depend on the evaluation. -/
lemma Species.mutatedAll_withEvaluate (sp : Species ι) (evaluate : Act (ι × Session) Float)
    (rate : Float) (xs : List ι) :
    (sp.withEvaluate evaluate).mutatedAll rate xs = sp.mutatedAll rate xs := by
  induction xs with
  | nil => rfl
  | cons x xs ih =>
    rw [mutatedAll, mutatedAll, ih]
    rfl

section

variable {sp : Species ι} {evaluate : Act (ι × Session) Float} {Good : ι → Prop}

/-- Individuals that are evaluated alike are so in a list. -/
lemma Species.evaluateAll_withEvaluate
    (hagree : ∀ x s, Good x → evaluate (x, s) = sp.evaluate (x, s)) {xs : List ι}
    (hxs : ∀ x ∈ xs, Good x) (s : Session) :
    (sp.withEvaluate evaluate).evaluateAll xs s = sp.evaluateAll xs s := by
  induction xs generalizing s with
  | nil => rfl
  | cons x xs ih =>
    obtain ⟨hx, hxs⟩ := List.forall_mem_cons.mp hxs
    have hfirst : (sp.withEvaluate evaluate).evaluate (x, s) = sp.evaluate (x, s) := hagree x s hx
    rw [Species.evaluateAll, Species.evaluateAll, hfirst]
    rcases sp.evaluate (x, s) with ⟨e | fitness, y, t⟩
    · rfl
    · dsimp only
      rw [ih hxs]

lemma Species.evaluated_withEvaluate
    (hagree : ∀ x s, Good x → evaluate (x, s) = sp.evaluate (x, s)) {xs : List ι}
    (hxs : ∀ x ∈ xs, Good x) : (sp.withEvaluate evaluate).evaluated xs = sp.evaluated xs := by
  funext s
  rw [evaluated, evaluated, evaluateAll_withEvaluate hagree hxs]

/-! ### Breeding -/

namespace Breeding

variable {n : Nat}

/-- Computations that agree on populations of good members agree one after the other, if the first
one keeps them so. -/
lemma bind_congr {Q : β → Prop} {l m : Breeding ι β} {f g : β → Breeding ι α}
    (hyields : Yields Good n m Q) (hm : ∀ st, st.1.Consists Good n → l st = m st)
    (hf : ∀ b, Q b → ∀ st, st.1.Consists Good n → g b st = f b st) {st : Population ι × Session}
    (hst : st.1.Consists Good n) : (l >>= g) st = (m >>= f) st :=
  (hyields st.2.journal.discards).bind_congr ⟨hst, rfl⟩ (hm st hst)
    fun b mid hmid => hf b hmid.1 mid hmid.2.1

variable (hclosed : sp.IsClosed Good)
  (hagree : ∀ x s, Good x → evaluate (x, s) = sp.evaluate (x, s))

include hagree

lemma evaluatedChild_withEvaluate {child : Option ι} (hchild : ∀ x ∈ child, Good x) :
    evaluatedChild (sp.withEvaluate evaluate) child = evaluatedChild sp child := by
  cases child with
  | none => rfl
  | some child =>
    funext s
    have hevaluate : (sp.withEvaluate evaluate).evaluate (child, s) = sp.evaluate (child, s) :=
      hagree child s (hchild child rfl)
    simp only [evaluatedChild, hevaluate]

lemma evaluateChildren_withEvaluate {st : Population ι × Session}
    (hst : st.1.Consists Good n) :
    evaluateChildren (sp.withEvaluate evaluate) st = evaluateChildren sp st := by
  rcases st with ⟨p, s⟩
  simp only [evaluateChildren, Act.bind_apply, population,
    evaluatedChild_withEvaluate hagree hst.son, evaluatedChild_withEvaluate hagree hst.daughter]

include hclosed

lemma shuffle_withEvaluate (d : Direction) {st : Population ι × Session}
    (hst : st.1.Consists Good n) :
    shuffle (sp.withEvaluate evaluate) d st = shuffle sp d st := by
  refine bind_congr Yields.population (fun _ _ => rfl) (fun p _ st hst => ?_) hst
  rw [show hasConverged (sp.withEvaluate evaluate) p = hasConverged sp p from rfl]
  split
  · have hdraw : mutants (sp.withEvaluate evaluate) = mutants sp := by
      simp only [mutants, Species.mutatedAll_withEvaluate]
    refine bind_congr (yields_mutants hclosed) (fun _ _ => by rw [hdraw])
      (fun drawn hdrawn st hst => ?_) hst
    rw [Species.evaluated_withEvaluate hagree hdrawn]
    rfl
  · rfl

/-- **A step breeds the same of individuals that are evaluated alike.** -/
theorem step_withEvaluate (rules : EvolutionSettings) (hn : 2 ≤ n)
    (crossoverRate mutationRate : Float) {st : Population ι × Session}
    (hst : st.1.Consists Good n) :
    step (sp.withEvaluate evaluate) rules crossoverRate mutationRate st
      = step sp rules crossoverRate mutationRate st := by
  refine bind_congr (yields_select hn) (fun _ _ => rfl) (fun _ _ st hst => ?_) hst
  refine bind_congr (yields_recombine hclosed crossoverRate) (fun _ _ => rfl) (fun _ _ st hst => ?_)
    hst
  refine bind_congr (yields_mutate hclosed mutationRate) (fun _ _ => rfl) (fun _ _ st hst => ?_) hst
  refine bind_congr (yields_evaluateChildren hclosed)
    (fun _ hst => evaluateChildren_withEvaluate hagree hst) (fun _ _ st hst => ?_) hst
  refine bind_congr (yields_migrate hn) (fun _ _ => rfl) (fun _ _ st hst => ?_) hst
  split
  · exact bind_congr (yields_shuffle hclosed rules.direction)
      (fun _ hst => shuffle_withEvaluate hclosed hagree _ hst) (fun _ _ _ _ => rfl) hst
  · rfl

end Breeding

end

/-! ### Runs -/

/-- The outcome of a run, its seconds left out. -/
def Outcome.untimed (o : Outcome ι) : Outcome ι := { o with elapsed := 0.0 }

/-- An event of a run, its seconds left out. -/
def Event.untimed : Event ι → Event ι
  | complete outcome => complete outcome.untimed
  | e => e

namespace Evolution

/-- What a run ends with and what it has told, its seconds left out. -/
def untimed (r : Except Error (Outcome ι) × Trail ι) :
    Except Error (Outcome ι) × List (Event ι) :=
  (r.1.map Outcome.untimed, r.2.1.map Event.untimed)

/-- The plan with another evaluation. -/
def Plan.withEvaluate (plan : Plan ι) (evaluate : Act (ι × Session) Float) : Plan ι :=
  { plan with species := plan.species.withEvaluate evaluate }

variable {plan : Plan ι} {evaluate : Act (ι × Session) Float}

/-- Without a time budget it does not matter what the clock says when a run is to stop. -/
lemma stop?_withEvaluate (hbudget : plan.rules.timeBudget = none) (st : Stage ι)
    (elapsed elapsed' : Float) :
    stop? (plan.withEvaluate evaluate) st elapsed' = stop? plan st elapsed := by
  have hrules : (plan.withEvaluate evaluate).rules = plan.rules := rfl
  have hreaches : reachesTarget (plan.withEvaluate evaluate) st = reachesTarget plan st := rfl
  simp only [stop?, hrules, hreaches, hbudget, Option.any_none]

/-- The clock is all that the ends of two runs differ in. -/
lemma finished_withEvaluate (st : Stage ι) (reason : StopReason) (elapsed elapsed' : Float)
    (trail : Trail ι) :
    untimed (finished (plan.withEvaluate evaluate) st reason elapsed' trail)
      = untimed (finished plan st reason elapsed trail) := by
  rw [finished, finished]
  cases st.population.winner? with
  | none => rfl
  | some winner => rfl

section

variable {Good : ι → Prop} {n : Nat} (hclosed : plan.species.IsClosed Good)
  (hagree : ∀ x s, Good x → evaluate (x, s) = plan.species.evaluate (x, s))

include hagree

lemma firstPopulation_withEvaluate (hnewborn : Returns plan.newborn Good) :
    firstPopulation (plan.withEvaluate evaluate) = firstPopulation plan := by
  funext s
  refine (Run.Yields.draw (returns_newborns hnewborn plan.rules.populationSize)
    s.journal.discards).bind_congr rfl rfl fun xs t hxs => ?_
  have hall : (plan.withEvaluate evaluate).species.evaluated xs = plan.species.evaluated xs :=
    Species.evaluated_withEvaluate hagree hxs.1.2
  rw [hall]
  rfl

lemma begun_withEvaluate (hnewborn : Returns plan.newborn Good) :
    begun (plan.withEvaluate evaluate) = begun plan := by
  simp only [begun, firstPopulation_withEvaluate hagree hnewborn]
  rfl

include hclosed

lemma stepped_withEvaluate (hn : 2 ≤ n) (generation : Nat) {p : Population ι}
    (hp : p.Consists Good n) :
    stepped (plan.withEvaluate evaluate) generation p = stepped plan generation p := by
  funext s
  have hst : (p, s).1.Consists Good n := hp
  have hstep := Breeding.step_withEvaluate hclosed hagree plan.rules hn plan.rules.crossoverRate
    plan.rules.mutationRate hst
  simp only [stepped, Plan.withEvaluate, hstep]

lemma bred_withEvaluate (hn : 2 ≤ n) {st : Stage ι} (hst : st.population.Consists Good n) :
    bred (plan.withEvaluate evaluate) st = bred plan st := by
  simp only [bred, stepped_withEvaluate hclosed hagree hn (st.generation + 1) hst]
  rfl

/-- All generations are bred alike, whatever the clocks are. -/
lemma bredOn_withEvaluate (hbudget : plan.rules.timeBudget = none) (hn : 2 ≤ n)
    (clock clock' : Nat → Float) (left : Nat) {st : Stage ι}
    (hst : st.population.Consists Good n) (trail : Trail ι) :
    bredOn (plan.withEvaluate evaluate) clock' left st trail = bredOn plan clock left st trail := by
  induction left generalizing st trail with
  | zero =>
    rw [bredOn, bredOn, stop?_withEvaluate hbudget st (clock st.generation)]
  | succ left ih =>
    rw [bredOn, bredOn, stop?_withEvaluate hbudget st (clock st.generation)]
    cases stop? plan st (clock st.generation) with
    | some reason => rfl
    | none =>
      have hnext : Yields plan n trail.2.journal (bred plan st) _ := yields_bred hclosed hn hst
      dsimp only
      rw [bred_withEvaluate hclosed hagree hn hst]
      rcases hbred : bred plan st trail with ⟨e | st', trail'⟩
      · rfl
      · exact ih (hnext.ok (accounted_self plan trail) hbred).1 trail'

/-- **Runs of species that evaluate alike are alike**, whatever their clocks are, if they have no
time budget. -/
theorem run_withEvaluate (hnewborn : Returns plan.newborn Good)
    (hsize : 2 ≤ plan.rules.populationSize) (hbudget : plan.rules.timeBudget = none)
    (clock clock' : Nat → Float) (trail : Trail ι) :
    untimed (run (plan.withEvaluate evaluate) clock' trail) = untimed (run plan clock trail) := by
  have hbegin : Yields plan plan.rules.populationSize trail.2.journal (begun plan) _ :=
    yields_begun hclosed hnewborn hsize
  rw [run, run, Act.bind_apply, Act.bind_apply, begun_withEvaluate hagree hnewborn]
  rcases hbegun : begun plan trail with ⟨e | st, trail'⟩
  · rfl
  · obtain ⟨hst, -⟩ := hbegin.ok (accounted_self plan trail) hbegun
    have hrules : (plan.withEvaluate evaluate).rules = plan.rules := rfl
    dsimp only
    rw [Act.bind_apply, Act.bind_apply, hrules,
      bredOn_withEvaluate hclosed hagree hbudget hsize clock clock' _ hst]
    rcases bredOn plan clock plan.rules.generations st trail' with ⟨e | ⟨last, reason⟩, trail''⟩
    · rfl
    · exact finished_withEvaluate last reason _ _ trail''

end

end Evolution

end FuzzyForest
