/-
What a run tells, and what it counts.

A run tells of its start and of its first winner, then, generation by generation, of a winner that
is better than the one before and of its state at the intervals that are set, and at last of its
outcome.  Generations that are discarded for the failure of an evaluation count like any other: two
more evaluations each.  The run ends with the first generation after which there is a reason to.
-/
import FuzzyForest.Proofs.ComputedWinner

namespace FuzzyForest.Evolution

open Act (Returns)
open Breeding Population

variable {ι : Type}

/-! ### The reasons to stop -/

/-- The reasons in the order in which they are looked at. -/
def reasonsInOrder : List StopReason := [.targetFitness, .generations, .evaluations, .timeBudget]

/-- There is a reason to stop with a population that was bred for some generations. -/
def Due (plan : Plan ι) (clock : Nat → Float) (p : Population ι) (generation : Nat) :
    StopReason → Prop
  | .targetFitness => ∃ target ∈ plan.rules.targetFitness,
      plan.rules.direction.isBetter target (p.bestFitness plan.species) = false
  | .generations => plan.rules.generations ≤ generation
  | .evaluations => ∃ most ∈ plan.rules.maxEvaluations,
      most ≤ plan.rules.populationSize + 2 * generation
  | .timeBudget => ∃ budget ∈ plan.rules.timeBudget, budget ≤ clock generation

/-- There is a reason to stop and none that is looked at before. -/
def FirstDue (plan : Plan ι) (clock : Nat → Float) (p : Population ι) (generation : Nat)
    (reason : StopReason) : Prop :=
  Due plan clock p generation reason ∧ ∃ earlier later,
    reasonsInOrder = earlier ++ reason :: later ∧ ∀ r ∈ earlier, ¬Due plan clock p generation r

/-! ### The chronicle -/

/-- The winners that events tell of, one after the other. -/
def winners (told : List (Event ι)) : List ι :=
  told.filterMap fun
    | .improvement _ winner => some winner
    | _ => none

/-- The report on a generation, if one is due. -/
def reports (plan : Plan ι) (generation : Nat) (p : Population ι) : List (Event ι) :=
  if 0 < plan.rules.reportInterval ∧ plan.rules.reportInterval ∣ generation then
    [.report generation (p.stats plan.species) (plan.rules.populationSize + 2 * generation)]
  else []

/-- A breeding step that succeeds or fails in an evaluation leads from one population to the next.
What is told of it changes nothing but the journal. -/
def Follows (plan : Plan ι) (before after : Population ι × Session) : Prop :=
  let r := step plan.species plan.rules plan.rules.crossoverRate plan.rules.mutationRate before
  isTolerated r.1 = true ∧ after.1 = r.2.1 ∧ ∃ journal, after.2 = { r.2.2 with journal }

/-- The populations that a run comes to that draws individuals, evaluates and sorts them, and breeds
some generations of them without a reason to stop before any. -/
inductive Reached (plan : Plan ι) (clock : Nat → Float) (origin : Session) :
    (generation : Nat) → Population ι × Session → Prop
  | start {s t : Session} {journal journal' : Journal} {xs members : List ι}
    (hdrawn : Run.draw (newborns plan.newborn plan.rules.populationSize)
      { origin with journal } = (.ok xs, s))
    (hevaluated : plan.species.evaluateAll xs s = (.ok (), members, t)) :
    Reached plan clock origin 0 (ranked plan.species plan.rules.direction ⟨members, none, none⟩,
      { t with journal := journal' })
  | next {generation : Nat} {before after : Population ι × Session}
    (h : Reached plan clock origin generation before)
    (hrunning : ∀ reason, ¬Due plan clock before.1 generation reason)
    (hnext : Follows plan before after) : Reached plan clock origin (generation + 1) after

/-- A run that draws individuals and evaluates and ranks them, and that has bred some generations
of them without a reason to stop before any, with all that it has told, the first event first. -/
inductive Chronicle (plan : Plan ι) (clock : Nat → Float) (origin : Session) :
    (generation : Nat) → Population ι × Session → List (Event ι) → Prop
  | start {s t : Session} {journal journal' : Journal} {xs members : List ι} {p : Population ι}
    {winner : ι}
    (hdrawn : Run.draw (newborns plan.newborn plan.rules.populationSize)
      { origin with journal } = (.ok xs, s))
    (hevaluated : plan.species.evaluateAll xs s = (.ok (), members, t))
    (hranked : p = ranked plan.species plan.rules.direction ⟨members, none, none⟩)
    (hwinner : p.winner? = some winner) :
    Chronicle plan clock origin 0 (p, { t with journal := journal' })
      [.start plan.rules.populationSize, .improvement 0 winner]
  | improves {generation : Nat} {before after : Population ι × Session} {told : List (Event ι)}
    {old new : ι} (h : Chronicle plan clock origin generation before told)
    (hrunning : ∀ reason, ¬Due plan clock before.1 generation reason)
    (hnext : Follows plan before after)
    (hold : before.1.winner? = some old) (hnew : after.1.winner? = some new)
    (hbetter : better plan.species plan.rules.direction new old = true) :
    Chronicle plan clock origin (generation + 1) after
      (told ++ .improvement (generation + 1) new :: reports plan (generation + 1) after.1)
  | keeps {generation : Nat} {before after : Population ι × Session} {told : List (Event ι)}
    (h : Chronicle plan clock origin generation before told)
    (hrunning : ∀ reason, ¬Due plan clock before.1 generation reason)
    (hnext : Follows plan before after) (hwinner : after.1.winner? = before.1.winner?) :
    Chronicle plan clock origin (generation + 1) after
      (told ++ reports plan (generation + 1) after.1)

section

variable {plan : Plan ι} {clock : Nat → Float} {origin : Session} {events : List (Event ι)}
  {generation : Nat} {st st' : Stage ι} {trail trail' : Trail ι} {told : List (Event ι)}

/-! ### Stopping -/

/-- A run stops for the first reason that there is, and goes on where there is none. -/
lemma stop?_cases (plan : Plan ι) (clock : Nat → Float) {st : Stage ι}
    (hevaluations : st.evaluations = plan.rules.populationSize + 2 * st.generation) :
    (∃ reason, stop? plan st (clock st.generation) = some reason ∧
        FirstDue plan clock st.population st.generation reason) ∨
      stop? plan st (clock st.generation) = none ∧
        ∀ reason, ¬Due plan clock st.population st.generation reason := by
  have htarget : reachesTarget plan st = true
      ↔ Due plan clock st.population st.generation .targetFitness := by
    simp only [reachesTarget, Due, Option.any_eq_true, Option.mem_def, Bool.not_eq_true']
  have hbudget : (plan.rules.maxEvaluations.any fun most => most ≤ st.evaluations) = true
      ↔ Due plan clock st.population st.generation .evaluations := by
    simp only [Due, Option.any_eq_true, Option.mem_def, decide_eq_true_eq, hevaluations]
  have htime : (plan.rules.timeBudget.any fun budget => budget ≤ clock st.generation) = true
      ↔ Due plan clock st.population st.generation .timeBudget := by
    simp only [Due, Option.any_eq_true, Option.mem_def, decide_eq_true_eq]
  rw [stop?]
  by_cases h1 : Due plan clock st.population st.generation .targetFitness
  · rw [if_pos (htarget.mpr h1)]
    exact .inl ⟨_, rfl, h1, [], _, rfl, nofun⟩
  rw [if_neg (mt htarget.mp h1)]
  by_cases h2 : plan.rules.generations ≤ st.generation
  · rw [if_pos h2]
    exact .inl ⟨_, rfl, h2, [.targetFitness], _, rfl, by simpa using h1⟩
  rw [if_neg h2]
  by_cases h3 : Due plan clock st.population st.generation .evaluations
  · rw [if_pos (hbudget.mpr h3)]
    exact .inl ⟨_, rfl, h3, [.targetFitness, .generations], _, rfl, by simpa using ⟨h1, h2⟩⟩
  rw [if_neg (mt hbudget.mp h3)]
  by_cases h4 : Due plan clock st.population st.generation .timeBudget
  · rw [if_pos (htime.mpr h4)]
    exact .inl ⟨_, rfl, h4, [.targetFitness, .generations, .evaluations], _, rfl,
      by simpa using ⟨h1, h2, h3⟩⟩
  rw [if_neg (mt htime.mp h4)]
  refine .inr ⟨rfl, fun reason => ?_⟩
  cases reason <;> assumption

/-! ### The size of a population -/

lemma length_newborns {newborn : Draw ι} {n : Nat} {xs : List ι} {s t : Source}
    (h : newborns newborn n s = (.ok xs, t)) : xs.length = n := by
  induction n generalizing xs s with
  | zero =>
    cases h
    rfl
  | succ n ih =>
    obtain ⟨x, _, -, h⟩ := Act.bind_eq_ok.mp h
    obtain ⟨rest, _, hrest, h⟩ := Act.bind_eq_ok.mp h
    cases h
    rw [List.length_cons, ih hrest]

lemma exists_winner_of_size {p : Population ι} (h : 2 ≤ p.size) :
    ∃ winner, p.winner? = some winner := by
  obtain ⟨winner, rest, hp⟩ := List.exists_cons_of_length_pos (show 0 < p.members.length from
    Nat.lt_of_lt_of_le Nat.zero_lt_two h)
  exact ⟨winner, by rw [winner?, hp, List.head?_cons]⟩

lemma bestFitness_eq {sp : Species ι} {p : Population ι} {winner : ι}
    (h : p.winner? = some winner) : p.bestFitness sp = sp.fitness winner := by
  rw [bestFitness, show p.members.head? = some winner from h]
  rfl

/-- A step keeps the number of members. -/
lemma Follows.size_eq {before after : Population ι × Session} (h : Follows plan before after) :
    after.1.size = before.1.size := by
  obtain ⟨-, hafter, -⟩ := h
  rw [size, hafter]
  exact length_step plan.species plan.rules _ _ before

/-- A step keeps the first member or a better one, if it is settled how the members are sorted. -/
lemma Follows.leads {before after : Population ι × Session} (h : Follows plan before after)
    (hsize : 2 ≤ before.1.size) (hsortable : after.1.IsSortable plan.species) :
    Ranking.Leads (better plan.species plan.rules.direction) before.1.members after.1.members := by
  obtain ⟨-, hafter, -⟩ := h
  rw [hafter] at hsortable ⊢
  exact leads_step plan.species plan.rules _ _ hsize hsortable

/-- A drawn population keeps its size. -/
lemma Reached.size_eq {st : Population ι × Session} (h : Reached plan clock origin generation st) :
    st.1.size = plan.rules.populationSize := by
  induction h with
  | @start s _ _ _ xs _ hdrawn hevaluated =>
    obtain ⟨_, hdrawn, -⟩ := Act.within_eq.mp hdrawn
    have hmembers := plan.species.length_evaluateAll xs s
    rw [hevaluated, length_newborns hdrawn] at hmembers
    rw [size_ranked]
    exact hmembers
  | next _ _ hnext ih => rw [hnext.size_eq, ih]

/-- What is told of is reached. -/
lemma Chronicle.reached {st : Population ι × Session}
    (h : Chronicle plan clock origin generation st told) :
    Reached plan clock origin generation st := by
  induction h with
  | start hdrawn hevaluated hranked _ => exact hranked ▸ .start hdrawn hevaluated
  | improves _ hrunning hnext _ _ _ ih => exact ih.next hrunning hnext
  | keeps _ hrunning hnext _ ih => exact ih.next hrunning hnext

/-! ### Better and better winners -/

lemma winners_append_improvement (plan : Plan ι) (told : List (Event ι)) (generation : Nat)
    (winner : ι) (p : Population ι) :
    winners (told ++ .improvement generation winner :: reports plan generation p)
      = winners told ++ [winner] := by
  rw [winners, winners, reports, List.filterMap_append]
  split <;> rfl

lemma winners_append_reports (plan : Plan ι) (told : List (Event ι)) (generation : Nat)
    (p : Population ι) : winners (told ++ reports plan generation p) = winners told := by
  rw [winners, winners, reports, List.filterMap_append]
  split <;> exact List.append_nil _

/-- The last winner that was told of is the present one. -/
lemma Chronicle.getLast?_winners {st : Population ι × Session}
    (h : Chronicle plan clock origin generation st told) :
    (winners told).getLast? = st.1.winner? := by
  induction h with
  | start _ _ _ hwinner => exact hwinner.symm
  | improves _ _ _ _ hnew _ _ =>
    rw [winners_append_improvement, List.getLast?_concat, hnew]
  | keeps _ _ _ hwinner ih => rw [winners_append_reports, ih, hwinner]

/-- Every winner that is told of is better than all before. -/
lemma Chronicle.pairwise_winners {st : Population ι × Session}
    (h : Chronicle plan clock origin generation st told) : (winners told).Pairwise
      fun old new => better plan.species plan.rules.direction new old = true := by
  have htrans : IsTrans ι fun old new => better plan.species plan.rules.direction new old = true :=
    ⟨fun _ _ _ hxy hyz => better_trans plan.species plan.rules.direction _ _ _ hyz hxy⟩
  rw [← List.isChain_iff_pairwise]
  induction h with
  | start _ _ _ _ => exact List.isChain_singleton _
  | improves h _ _ hold _ hbetter ih =>
    rw [winners_append_improvement]
    refine List.isChain_append.mpr ⟨ih, List.isChain_singleton _, fun x hx y hy => ?_⟩
    rw [h.getLast?_winners] at hx
    cases Option.mem_unique hx hold
    cases hy
    exact hbetter
  | keeps _ _ _ _ ih => rwa [winners_append_reports]

/-- Every report counts the evaluations of the first population and two for every generation. -/
lemma Chronicle.of_report {st : Population ι × Session} {g evaluations : Nat}
    {stats : PopulationStats} (h : Chronicle plan clock origin generation st told)
    (hmem : Event.report g stats evaluations ∈ told) :
    evaluations = plan.rules.populationSize + 2 * g := by
  have hreport : ∀ {n : Nat} {p : Population ι},
      Event.report g stats evaluations ∈ reports plan n p →
      evaluations = plan.rules.populationSize + 2 * g := by
    intro n p hmem
    rw [reports] at hmem
    split at hmem
    · cases List.mem_singleton.mp hmem
      rfl
    · cases hmem
  induction h with
  | start => simp at hmem
  | improves _ _ _ _ _ _ ih =>
    rcases List.mem_append.mp hmem with hmem | hmem
    · exact ih hmem
    · exact hreport ((List.mem_cons.mp hmem).resolve_left nofun)
  | keeps _ _ _ _ ih => exact (List.mem_append.mp hmem).elim ih hreport

/-! ### One generation -/

/-- A stage of a run accords with what was told. -/
structure Stands (plan : Plan ι) (clock : Nat → Float) (origin : Session) (events : List (Event ι))
    (st : Stage ι) (trail : Trail ι) (told : List (Event ι)) : Prop where
  chronicle : Chronicle plan clock origin st.generation (st.population, trail.2) told
  evaluations : st.evaluations = plan.rules.populationSize + 2 * st.generation
  best : st.best = st.population.bestFitness plan.species
  events : trail.1 = told.reverse ++ events

lemma stepped_cases {p : Population ι} {s t : Session} {r : Except Error (Population ι)}
    (h : stepped plan generation p s = (r, t)) :
    (∃ q, r = .ok q ∧ ∀ journal, Follows plan (p, s) (q, { t with journal })) ∨
      ∃ e, r = .error e ∧ e.isEvaluationFailure = false ∧
        (step plan.species plan.rules plan.rules.crossoverRate plan.rules.mutationRate
          (p, s)).1 = .error e := by
  rw [stepped] at h
  rcases hstep : step plan.species plan.rules plan.rules.crossoverRate plan.rules.mutationRate
    (p, s) with ⟨e | ⟨⟩, q, u⟩ <;> simp only [hstep] at h
  · cases hfailure : e.isEvaluationFailure <;> simp only [hfailure] at h <;> cases h
    · exact .inr ⟨e, rfl, hfailure, rfl⟩
    · refine .inl ⟨q, rfl, fun journal => ⟨?_, ?_, journal, ?_⟩⟩ <;> rw [hstep]
      exact hfailure
  · cases h
    refine .inl ⟨q, rfl, fun journal => ⟨?_, ?_, journal, ?_⟩⟩ <;> rw [hstep]
    rfl

/-- A winner is told of exactly if it is better than the one before, and else it is the same. -/
lemma improved_cases (generation : Nat) (events : List (Event ι)) (s : Session)
    {p q : Population ι} {winner : ι}
    (hleads : Ranking.Leads (better plan.species plan.rules.direction) p.members q.members)
    (hwinner : q.winner? = some winner) :
    ∃ told journal, improved plan generation q (p.bestFitness plan.species) (events, s)
        = (.ok (q.bestFitness plan.species), told ++ events, { s with journal }) ∧
      (told = [.improvement generation winner] ∧ (∃ old, p.winner? = some old ∧
          better plan.species plan.rules.direction winner old = true) ∨
        told = [] ∧ q.winner? = p.winner?) := by
  rcases hleads with hsame | ⟨old, hold, new, hnew, hbetter⟩
  · -- the fitness of the same winner is not better than itself
    have hbest : q.bestFitness plan.species = p.bestFitness plan.species := by
      rw [bestFitness, hsame, bestFitness]
    have hnot : plan.rules.direction.isBetter (p.bestFitness plan.species)
        (p.bestFitness plan.species) = false := by
      have hself : Ranking.Leads (better plan.species plan.rules.direction) p.members p.members :=
        .refl _
      exact not_better_bestFitness hself
    refine ⟨[], s.journal, ?_, .inr ⟨rfl, hsame⟩⟩
    simp only [improved, hbest, hnot]
    rfl
  · cases Option.mem_unique hnew hwinner
    refine ⟨[.improvement generation winner],
      (plan.notes (.improvement generation winner)).reverse ++ s.journal, ?_,
      .inl ⟨rfl, old, hold, hbetter⟩⟩
    have hbest : plan.rules.direction.isBetter (q.bestFitness plan.species)
        (p.bestFitness plan.species) = true := by
      rw [bestFitness_eq hwinner, bestFitness_eq hold]
      exact hbetter
    simp only [improved, hbest, tellWinner, hwinner, if_true]
    rfl

/-- A report is told of exactly at its interval. -/
lemma report_eq {α : Type} (plan : Plan ι) (generation : Nat) (p : Population ι) (a : α)
    (events : List (Event ι)) (s : Session) : ∃ journal,
    (if isReported plan.rules generation = true then do
        tell plan (.report generation (p.stats plan.species)
          (plan.rules.populationSize + 2 * generation))
        return a
      else return a : Evolving ι α) (events, s)
      = (.ok a, (reports plan generation p).reverse ++ events, { s with journal }) := by
  have hreported : isReported plan.rules generation = true
      ↔ 0 < plan.rules.reportInterval ∧ plan.rules.reportInterval ∣ generation := by
    simp only [isReported, Bool.and_eq_true, decide_eq_true_eq, beq_iff_eq,
      Nat.dvd_iff_mod_eq_zero]
  rw [reports]
  by_cases h : 0 < plan.rules.reportInterval ∧ plan.rules.reportInterval ∣ generation
  · rw [if_pos (hreported.mpr h), if_pos h]
    exact ⟨_, rfl⟩
  · rw [if_neg (mt hreported.mp h), if_neg h]
    exact ⟨s.journal, rfl⟩

/-- **A generation adds to the chronicle, unless its step fails otherwise than in an
evaluation.** -/
lemma Stands.bred (hsize : 2 ≤ plan.rules.populationSize)
    (hsortable : ∀ generation st, Reached plan clock origin generation st →
      st.1.IsSortable plan.species)
    (h : Stands plan clock origin events st trail told)
    (hrunning : ∀ reason, ¬Due plan clock st.population st.generation reason) :
    (∃ st' trail' told', bred plan st trail = (.ok st', trail') ∧
        st'.generation = st.generation + 1 ∧
        Stands plan clock origin events st' trail' told') ∨
      ∃ e, bred plan st trail = (.error e, trail.1, (stepped plan (st.generation + 1)
          st.population trail.2).2) ∧ e.isEvaluationFailure = false ∧
        (step plan.species plan.rules plan.rules.crossoverRate plan.rules.mutationRate
          (st.population, trail.2)).1 = .error e := by
  have hpopulation := h.chronicle.reached.size_eq
  rcases hstepped : stepped plan (st.generation + 1) st.population trail.2 with ⟨r, t⟩
  have hquietly : quietly (stepped plan (st.generation + 1) st.population) trail
      = (r, trail.1, t) := Act.within_eq.mpr ⟨t, hstepped, rfl⟩
  rw [Evolution.bred, Act.bind_apply, hquietly]
  rcases stepped_cases hstepped with ⟨q, rfl, hfollows⟩ | ⟨e, rfl, hfailure, herror⟩
  · refine .inl ?_
    have hq := (hfollows t.journal).size_eq
    have hleads := (hfollows t.journal).leads (show 2 ≤ st.population.size from hpopulation ▸ hsize)
      (hsortable _ _ (h.chronicle.reached.next hrunning (hfollows t.journal)))
    obtain ⟨winner, hwinner⟩ := exists_winner_of_size (show 2 ≤ q.size by rwa [hq, hpopulation])
    obtain ⟨new, journal, himproved, hnew⟩ :=
      improved_cases (st.generation + 1) trail.1 t hleads hwinner
    have hevaluations : st.evaluations + 2
        = plan.rules.populationSize + 2 * (st.generation + 1) := by
      rw [h.evaluations, Nat.mul_succ, Nat.add_assoc]
    let next : Stage ι := ⟨q, st.generation + 1, st.evaluations + 2, q.bestFitness plan.species⟩
    obtain ⟨journal', hreport⟩ :=
      report_eq plan (st.generation + 1) q next (new ++ trail.1) { t with journal }
    refine ⟨next, ((reports plan (st.generation + 1) q).reverse ++ (new ++ trail.1),
      { t with journal := journal' }), told ++ (new ++ reports plan (st.generation + 1) q),
      ?_, rfl, ?_, hevaluations, rfl, ?_⟩
    · rw [← hreport, ← hevaluations]
      dsimp only
      rw [Act.bind_apply, h.best, himproved]
    · rcases hnew with ⟨rfl, old, hold, hbetter⟩ | ⟨rfl, hsame⟩
      · exact h.chronicle.improves hrunning (hfollows journal') hold hwinner hbetter
      · exact h.chronicle.keeps hrunning (hfollows journal') hsame
    · have hreverse : new.reverse = new := by
        rcases hnew with ⟨rfl, -⟩ | ⟨rfl, -⟩ <;> rfl
      dsimp only
      rw [h.events, List.reverse_append, List.reverse_append, hreverse, List.append_assoc,
        List.append_assoc]
  · exact .inr ⟨e, rfl, hfailure, herror⟩

/-! ### Whole runs -/

/-- The individuals of the first population cannot all be evaluated. -/
def FailsAtFirst (plan : Plan ι) (origin : Session) (e : Error) : Prop :=
  ∃ journal xs s, Run.draw (newborns plan.newborn plan.rules.populationSize)
      { origin with journal } = (.ok xs, s) ∧ (plan.species.evaluateAll xs s).1 = .error e

/-- A step after some generations fails otherwise than in an evaluation. -/
def FailsLater (plan : Plan ι) (clock : Nat → Float) (origin : Session) (e : Error) : Prop :=
  ∃ generation st told, Chronicle plan clock origin generation st told ∧
    (∀ reason, ¬Due plan clock st.1 generation reason) ∧ e.isEvaluationFailure = false ∧
    (step plan.species plan.rules plan.rules.crossoverRate plan.rules.mutationRate st).1
      = .error e

/-- The first population is drawn, evaluated and sorted. -/
lemma firstPopulation_cases (hnewborn : Returns plan.newborn fun _ => True)
    (hsize : 2 ≤ plan.rules.populationSize) (s : Session) :
    (∃ xs members t u, Run.draw (newborns plan.newborn plan.rules.populationSize) s = (.ok xs, t) ∧
        plan.species.evaluateAll xs t = (.ok (), members, u) ∧
        members.length = plan.rules.populationSize ∧
        firstPopulation plan s
          = ((checkSort plan.species plan.rules.direction ⟨members, none, none⟩).map fun _ =>
            ranked plan.species plan.rules.direction ⟨members, none, none⟩, u)) ∨
      ∃ e u, firstPopulation plan s = (.error e, u) ∧ (e = .stalled ∨
        ∃ xs t, Run.draw (newborns plan.newborn plan.rules.populationSize) s = (.ok xs, t) ∧
          (plan.species.evaluateAll xs t).1 = .error e) := by
  rw [firstPopulation, Act.bind_apply]
  rcases hdrawn : Run.draw (newborns plan.newborn plan.rules.populationSize) s with ⟨e | xs, t⟩ <;>
    obtain ⟨_, hdraw, -⟩ := Act.within_eq.mp hdrawn
  · exact .inr ⟨e, t, rfl, .inl ((returns_newborns hnewborn _).error trivial hdraw)⟩
  · have hlength := plan.species.length_evaluateAll xs t
    rw [length_newborns hdraw] at hlength
    rcases hall : plan.species.evaluateAll xs t with ⟨e | ⟨⟩, members, u⟩ <;>
      rw [hall] at hlength <;>
      simp only [Species.evaluated, Act.bind_apply, Act.lift, hall]
    · exact .inr ⟨e, u, rfl, .inr ⟨xs, t, rfl, by rw [hall]⟩⟩
    · refine .inl ⟨xs, members, t, u, rfl, hall, hlength, ?_⟩
      rw [ofMembers_of_two_le (hlength.symm ▸ hsize)]

lemma stands_begun (hnewborn : Returns plan.newborn fun _ => True)
    (hsize : 2 ≤ plan.rules.populationSize) (clock : Nat → Float) (trail : Trail ι)
    (hsortable : ∀ generation st, Reached plan clock trail.2 generation st →
      st.1.IsSortable plan.species) :
    (∃ st trail' told, begun plan trail = (.ok st, trail') ∧ st.generation = 0 ∧
        Stands plan clock trail.2 trail.1 st trail' told) ∨
      ∃ e trail', begun plan trail = (.error e, trail') ∧
        (e = .stalled ∨ FailsAtFirst plan trail.2 e) := by
  obtain ⟨journal, htell⟩ : ∃ journal, tell plan (.start plan.rules.populationSize) trail
      = (.ok (), .start plan.rules.populationSize :: trail.1, { trail.2 with journal }) :=
    ⟨_, rfl⟩
  rw [begun, Act.bind_apply, htell]
  dsimp only
  rcases firstPopulation_cases hnewborn hsize { trail.2 with journal } with
    ⟨xs, members, t, u, hdrawn, hall, hlength, hfirst⟩ | ⟨e, u, hfirst, hfails⟩
  · have hreached : Reached plan clock trail.2 0
        (ranked plan.species plan.rules.direction ⟨members, none, none⟩,
          { u with journal := u.journal }) := .start hdrawn hall
    have hsort : checkSort plan.species plan.rules.direction ⟨members, none, none⟩ = .ok () :=
      (isSortable_ranked_iff.mp (hsortable _ _ hreached)).checkSort_eq
    rw [hsort] at hfirst
    have hquietly : quietly (firstPopulation plan) (.start plan.rules.populationSize :: trail.1,
        { trail.2 with journal }) = (_, .start plan.rules.populationSize :: trail.1, u) :=
      Act.within_eq.mpr ⟨u, hfirst, rfl⟩
    have hsize' : (ranked plan.species plan.rules.direction ⟨members, none, none⟩).size
        = plan.rules.populationSize := by
      rw [size_ranked]
      exact hlength
    obtain ⟨winner, hwinner⟩ := exists_winner_of_size (hsize'.symm ▸ hsize)
    rw [Act.bind_apply, hquietly]
    dsimp only [Except.map]
    rw [Act.bind_apply, tellWinner, hwinner]
    refine .inl ⟨_, _, [.start plan.rules.populationSize, .improvement 0 winner], rfl, rfl, ?_⟩
    exact ⟨.start hdrawn hall rfl hwinner, hsize', rfl, rfl⟩
  · have hquietly : quietly (firstPopulation plan) (.start plan.rules.populationSize :: trail.1,
        { trail.2 with journal }) = (_, .start plan.rules.populationSize :: trail.1, u) :=
      Act.within_eq.mpr ⟨u, hfirst, rfl⟩
    rw [Act.bind_apply, hquietly]
    refine .inr ⟨e, _, rfl, hfails.imp_right fun h => ?_⟩
    exact ⟨journal, h⟩

/-- Generation by generation a run comes to a stage with a reason to stop. -/
lemma Stands.bredOn (hsize : 2 ≤ plan.rules.populationSize)
    (hsortable : ∀ generation st, Reached plan clock origin generation st →
      st.1.IsSortable plan.species) (left : Nat)
    (h : Stands plan clock origin events st trail told)
    (hleft : st.generation + left = plan.rules.generations) :
    (∃ st' reason trail' told', bredOn plan clock left st trail = (.ok (st', reason), trail') ∧
        Stands plan clock origin events st' trail' told' ∧
        st'.generation ≤ plan.rules.generations ∧
        FirstDue plan clock st'.population st'.generation reason) ∨
      ∃ e trail', bredOn plan clock left st trail = (.error e, trail') ∧
        FailsLater plan clock origin e := by
  induction left generalizing st trail told with
  | zero =>
    rcases stop?_cases plan clock h.evaluations with ⟨reason, hstop, hfirst⟩ | ⟨-, hrunning⟩
    · refine .inl ⟨st, reason, trail, told, ?_, h, hleft.le, hfirst⟩
      rw [Evolution.bredOn, hstop]
      rfl
    · exact absurd (Nat.le_of_eq hleft.symm) (hrunning .generations)
  | succ left ih =>
    rw [Evolution.bredOn]
    rcases stop?_cases plan clock h.evaluations with ⟨reason, hstop, hfirst⟩ | ⟨hstop, hrunning⟩
    · refine .inl ⟨st, reason, trail, told, ?_, h, by omega, hfirst⟩
      rw [hstop]
    · rw [hstop]
      dsimp only
      rcases h.bred hsize hsortable hrunning with
        ⟨st', trail', told', hbred, hgeneration, hnext⟩ | ⟨e, hbred, hfailure, hstep⟩
      · rw [hbred]
        exact ih hnext (by omega)
      · rw [hbred]
        exact .inr ⟨e, _, rfl, _, _, _, h.chronicle, hrunning, hfailure, hstep⟩

/-- **A run tells of all that happens in it, and counts it.**  What it tells is the chronicle of
its generations and then its outcome.  Every winner that it tells of is better than the one before,
and the last one is the outcome's.  Two evaluations are counted for every generation, whether it is
discarded or not.  There are no more generations than are allowed, the run ends for the first
reason that there is, and there is none before any generation.  A run fails only if the first
population cannot be evaluated or a step fails otherwise than in an evaluation, unless the source
is exhausted.  This is so where all populations on the way are small or have fitness values that
are numbers. -/
theorem run_chronicle (plan : Plan ι) (hcheck : plan.rules.check = .ok ())
    (hnewborn : Returns plan.newborn fun _ => True) (clock : Nat → Float) (trail : Trail ι)
    (hsortable : ∀ generation st, Reached plan clock trail.2 generation st →
      st.1.IsSortable plan.species) :
    match run plan clock trail with
    | (.ok outcome, trail') => ∃ p s told,
        Chronicle plan clock trail.2 outcome.generations (p, s) told ∧
        trail'.1 = .complete outcome :: (told.reverse ++ trail.1) ∧
        (winners told).Pairwise
          (fun old new => better plan.species plan.rules.direction new old = true) ∧
        (winners told).getLast? = some outcome.winner ∧
        outcome.stats = p.stats plan.species ∧
        outcome.stats.best = plan.species.fitness outcome.winner ∧
        (∀ generation stats evaluations, .report generation stats evaluations ∈ told →
          evaluations = plan.rules.populationSize + 2 * generation) ∧
        outcome.evaluations = plan.rules.populationSize + 2 * outcome.generations ∧
        outcome.generations ≤ plan.rules.generations ∧
        FirstDue plan clock p outcome.generations outcome.reason
    | (.error e, _) => e = .stalled ∨ FailsAtFirst plan trail.2 e ∨
        FailsLater plan clock trail.2 e := by
  have hsize := two_le_of_check hcheck
  rw [run, Act.bind_apply]
  rcases stands_begun hnewborn hsize clock trail hsortable with
    ⟨st, u, told, hbegun, hzero, hst⟩ | ⟨e, u, hbegun, hfails⟩
  · rw [hbegun]
    dsimp only
    rw [Act.bind_apply]
    rcases hst.bredOn hsize hsortable plan.rules.generations (by rw [hzero, Nat.zero_add]) with
      ⟨last, reason, v, told', hbredOn, hlast, hle, hfirst⟩ | ⟨e, v, hbredOn, hfails⟩
    · obtain ⟨winner, hwinner⟩ := exists_winner_of_size (p := last.population)
        (by rw [hlast.chronicle.reached.size_eq]; exact hsize)
      rw [hbredOn]
      dsimp only
      rw [finished, hwinner]
      refine ⟨last.population, v.2, told', hlast.chronicle, ?_, hlast.chronicle.pairwise_winners,
        ?_, rfl, ?_, fun _ _ _ => hlast.chronicle.of_report, hlast.evaluations, hle, hfirst⟩
      · exact congrArg (List.cons _) hlast.events
      · rw [hlast.chronicle.getLast?_winners]
        exact hwinner
      · exact bestFitness_eq hwinner
    · rw [hbredOn]
      exact .inr (.inr hfails)
  · rw [hbegun]
    exact hfails.imp_right .inl

end

/-- A run whose evaluations fail from the second generation on counts that generation, too. -/
theorem run_chronicle_wornOut :
    let rules : EvolutionSettings := { populationSize := 2, generations := 2 }
    let ctx : Context Float := { Context.fuzzy Forest.series {} with
      step := .failingAfter 12 ⟨.evaluation, "worn out"⟩ fuzzySteps }
    let source : Source := ⟨fun n => ((n * 5 + 2) % 9 * 576460752303423488).toUInt64, 0, 4⟩
    let plan := Plan.forests ctx rules Event.notes
    rules.check = .ok () ∧ ∃ outcome trail p s told,
      run plan (fun _ => 0.0) ([], { source }) = (.ok outcome, trail) ∧
      trail.2.journal.discards.length = 1 ∧ outcome.generations = 2 ∧ outcome.evaluations = 6 ∧
      Chronicle plan (fun _ => 0.0) { source } 2 (p, s) told ∧
      trail.1 = .complete outcome :: told.reverse := by
  intro rules ctx source plan
  have hcheck : rules.check = .ok () := by decide +kernel
  have hnewborn : Returns plan.newborn fun _ => True :=
    (Forest.returns_random Forest.series {}).mono fun _ _ => trivial
  have hend : (run plan (fun _ => 0.0) ([], { source })).1.toOption.map Outcome.generations
      = some 2 ∧ (run plan (fun _ => 0.0) ([], { source })).2.2.journal.discards.length = 1 := by
    decide +kernel
  have hsmall : ∀ generation st, Reached plan (fun _ => 0.0) { source } generation st →
      st.1.IsSortable plan.species := fun _ _ h => .inl (h.size_eq.trans_le (by decide))
  have hrun := run_chronicle plan hcheck hnewborn (fun _ => 0.0) ([], { source }) hsmall
  rcases h : run plan (fun _ => 0.0) ([], { source }) with ⟨e | outcome, trail⟩ <;>
    rw [h] at hend hrun
  · cases hend.1
  · obtain ⟨p, s, told, hchronicle, hevents, -, -, -, -, -, hevaluations, -⟩ := hrun
    have hgenerations : outcome.generations = 2 := Option.some.inj hend.1
    rw [hgenerations] at hchronicle hevaluations
    rw [List.append_nil] at hevents
    exact ⟨hcheck, outcome, trail, p, s, told, rfl, hend.2, hgenerations, hevaluations, hchronicle,
      hevents⟩

end FuzzyForest.Evolution
