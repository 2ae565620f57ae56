/-
Schedules.

No evaluation depends on another one, and so the individuals of a list may be evaluated in any
order, side by side, and past a failure.  `Species.Evaluated` is what all such schedules have in
common.  `Breeding.Shuffled` and `Evolution.Founded` are what mixing up and the start of a run come
to under some schedule; what is said of them holds of the schedule that is run here and of any
other.
-/
import FuzzyForest.Evolution.Run
import FuzzyForest.Proofs.Triple
import Mathlib.Data.List.Forall2
import Mathlib.Logic.Relation

namespace FuzzyForest

open Act (Triple)

variable {ι : Type}

/-! ### Evaluation -/

namespace Species

variable {sp : Species ι} {x y : ι} {xs ys : List ι} {s t : Session} {outcome : Except Error Unit}

/-- What the evaluation of individuals comes to under some schedule. -/
structure Evaluated (sp : Species ι) (xs : List ι) (s : Session) (outcome : Except Error Unit)
    (ys : List ι) (t : Session) : Prop where
  /-- Every individual is left as it was or as its evaluation leaves it. -/
  each : List.Forall₂ (fun x y => y = x ∨ ∃ u, y = (sp.evaluate (x, u)).2.1) xs ys
  /-- A success is that of every individual. -/
  ok : outcome = .ok () →
    List.Forall₂ (fun x y => ∃ u fitness v, sp.evaluate (x, u) = (.ok fitness, y, v)) xs ys
  /-- A failure is that of some individual. -/
  error : ∀ e, outcome = .error e →
    ∃ x ∈ xs, ∃ y ∈ ys, ∃ u v, sp.evaluate (x, u) = (.error e, y, v)
  /-- The session goes from one evaluation to another. -/
  session : Relation.ReflTransGen (fun u v => ∃ x ∈ xs, v = (sp.evaluate (x, u)).2.2) s t

namespace Evaluated

lemma length_eq (h : sp.Evaluated xs s outcome ys t) : ys.length = xs.length :=
  h.each.length_eq.symm

/-- What an evaluation gives to an individual all have after a success. -/
lemma forall_of_ok {P : ι → Prop} (h : sp.Evaluated xs s (.ok ()) ys t)
    (hP : ∀ {x y u v fitness}, sp.evaluate (x, u) = (.ok fitness, y, v) → P y) :
    ∀ y ∈ ys, P y := by
  have hall := h.ok rfl
  clear h
  induction hall with
  | nil => exact nofun
  | cons hfirst _ ih =>
    obtain ⟨_, _, _, hfirst⟩ := hfirst
    exact List.forall_mem_cons.mpr ⟨hP hfirst, ih⟩

/-- What no evaluation takes from an individual all have in the end. -/
lemma forall_of_each {P : ι → Prop} (h : sp.Evaluated xs s outcome ys t) (hxs : ∀ x ∈ xs, P x)
    (hP : ∀ x u, P x → P (sp.evaluate (x, u)).2.1) : ∀ y ∈ ys, P y := by
  have hall := h.each
  clear h
  induction hall with
  | nil => exact nofun
  | cons hfirst _ ih =>
    obtain ⟨hx, hxs⟩ := List.forall_mem_cons.mp hxs
    refine List.forall_mem_cons.mpr ⟨?_, ih hxs⟩
    rcases hfirst with rfl | ⟨u, rfl⟩
    · exact hx
    · exact hP _ u hx

end Evaluated

/-- The schedule in which every individual waits for those before it. -/
theorem evaluated_evaluateAll (sp : Species ι) (xs : List ι) (s : Session) :
    sp.Evaluated xs s (sp.evaluateAll xs s).1 (sp.evaluateAll xs s).2.1
      (sp.evaluateAll xs s).2.2 := by
  induction xs generalizing s with
  | nil =>
    refine ⟨.nil, fun _ => .nil, ?_, .refl⟩
    rintro e ⟨⟩
  | cons x xs ih =>
    have hleft : (sp.evaluate (x, s)).2.1 = x ∨
        ∃ u, (sp.evaluate (x, s)).2.1 = (sp.evaluate (x, u)).2.1 := .inr ⟨s, rfl⟩
    have hnext : ∃ x' ∈ x :: xs, (sp.evaluate (x, s)).2.2 = (sp.evaluate (x', s)).2.2 :=
      ⟨x, List.mem_cons_self, rfl⟩
    rcases hfirst : sp.evaluate (x, s) with ⟨e | fitness, y, u⟩ <;> rw [hfirst] at hleft hnext
    · simp only [evaluateAll, hfirst]
      refine ⟨.cons hleft (List.forall₂_same.mpr fun _ _ => .inl rfl), ?_, ?_, .single hnext⟩
      · rintro ⟨⟩
      · rintro e' ⟨⟩
        exact ⟨x, List.mem_cons_self, y, List.mem_cons_self, s, u, hfirst⟩
    · have hrest := ih u
      simp only [evaluateAll, hfirst]
      refine ⟨.cons hleft hrest.each, fun hok => .cons ⟨s, fitness, u, hfirst⟩ (hrest.ok hok),
        fun e he => ?_, .head hnext (Relation.ReflTransGen.mono ?_ _ _ hrest.session)⟩
      · obtain ⟨x', hx', y', hy', v, w, hfailed⟩ := hrest.error e he
        exact ⟨x', List.mem_cons_of_mem _ hx', y', List.mem_cons_of_mem _ hy', v, w, hfailed⟩
      · rintro v w ⟨x', hx', hw⟩
        exact ⟨x', List.mem_cons_of_mem _ hx', hw⟩

/-- Mutation keeps the number of individuals. -/
lemma length_mutatedAll (sp : Species ι) (rate : Float) (xs : List ι) :
    Triple (fun _ => True) (sp.mutatedAll rate xs) (fun ys _ => ys.length = xs.length)
      fun _ _ => True := by
  induction xs with
  | nil => exact Triple.pure fun _ _ => rfl
  | cons x xs ih =>
    refine Triple.bind (R := fun _ _ => True) Triple.const fun y => ?_
    refine Triple.bind ih fun ys => Triple.pure fun _ h => ?_
    rw [List.length_cons, List.length_cons, h]

end Species

/-! ### Mixing up -/

lemma Population.mem_refreshed {p : Population ι} {fresh : List ι} {x : ι}
    (h : x ∈ (p.refreshed fresh).members) : x ∈ p.members ∨ x ∈ fresh :=
  (List.mem_append.mp h).imp_left List.mem_of_mem_take

namespace Breeding

open Population

variable {sp : Species ι} {d : Direction} {st : Population ι × Session}
  {r : Except Error Bool × Population ι × Session}

/-- What mixing up comes to under some schedule. -/
inductive Shuffled (sp : Species ι) (d : Direction) (st : Population ι × Session) :
    Except Error Bool × Population ι × Session → Prop
  /-- The population has not converged. -/
  | idle : Shuffled sp d st (.ok false, st)
  /-- There are no mutants. -/
  | undrawn {e : Error} {s : Session} (h : mutants sp st = (.error e, st.1, s)) :
    Shuffled sp d st (.error e, st.1, s)
  /-- The mutants are evaluated, and the members are sorted whether that succeeds or fails. -/
  | mixed {drawn fresh : List ι} {outcome : Except Error Unit} {s t : Session}
    (hdrawn : mutants sp st = (.ok drawn, st.1, s))
    (hfresh : sp.Evaluated drawn s outcome fresh t) :
    Shuffled sp d st (do checkSort sp d (st.1.refreshed fresh); outcome; return true,
      ranked sp d (st.1.refreshed fresh), t)

/-- Mutants are drawn apart from the population. -/
lemma mutants_eq {drawn : Except Error (List ι)} {p : Population ι} {s : Session}
    (h : mutants sp st = (drawn, p, s)) : p = st.1 ∧ ∃ source source',
      sp.mutatedAll 1.0 (st.1.members.drop (st.1.size / 2)) source = (drawn, source') := by
  obtain ⟨q, t⟩ := st
  simp only [mutants, population, note, draw, aside, Run.note, Run.draw, Act.within, Act.modify,
    Act.bind_apply, Prod.mk.injEq] at h
  exact ⟨h.2.1.symm, _, _, Prod.ext h.1 rfl⟩

/-- Mixing up is what it comes to where every individual waits for those before it. -/
theorem shuffled_shuffle (sp : Species ι) (d : Direction) (st : Population ι × Session) :
    Shuffled sp d st (shuffle sp d st) := by
  obtain ⟨p, s⟩ := st
  by_cases hconverged : hasConverged sp p = true
  · simp only [shuffle, population, Act.bind_apply, if_pos hconverged]
    rcases hdrawn : mutants sp (p, s) with ⟨e | drawn, q, t⟩ <;>
      obtain rfl : q = p := (mutants_eq hdrawn).1
    · exact .undrawn hdrawn
    · have hmixed := Shuffled.mixed (d := d) hdrawn (sp.evaluated_evaluateAll drawn t)
      simp only [Species.evaluated, aside, Act.within, modify, sort, population, Act.bind_apply,
        Act.lift]
      generalize sp.evaluateAll drawn t = r at hmixed
      obtain ⟨outcome, fresh, u⟩ := r
      cases hsort : checkSort sp d (q.refreshed fresh) <;> cases outcome <;>
        simp only [hsort] at hmixed ⊢ <;> exact hmixed
  · simp only [shuffle, population, Act.bind_apply, if_neg hconverged]
    exact .idle

/-- There are as many mutants as there are members in the worse half. -/
lemma length_mutants {drawn : List ι} {p : Population ι} {s : Session}
    (h : mutants sp st = (.ok drawn, p, s)) :
    drawn.length = (st.1.members.drop (st.1.size / 2)).length := by
  obtain ⟨-, _, _, hall⟩ := mutants_eq h
  exact (sp.length_mutatedAll 1.0 _).ok trivial hall

/-- Their evaluation leaves as many members as before. -/
lemma length_refreshed {drawn fresh : List ι} {p : Population ι} {s s' t : Session}
    {outcome : Except Error Unit} (hdrawn : mutants sp st = (.ok drawn, p, s))
    (hfresh : sp.Evaluated drawn s' outcome fresh t) :
    (st.1.refreshed fresh).members.length = st.1.members.length := by
  rw [refreshed, List.length_append, hfresh.length_eq, length_mutants hdrawn, ← List.length_append,
    List.take_append_drop]

/-- Mixing up leaves the population as it is or sorts other individuals in behind the better
half. -/
lemma Shuffled.population_cases (h : Shuffled sp d st r) :
    r.2.1 = st.1 ∨ ∃ fresh, r.2.1 = ranked sp d (st.1.refreshed fresh) := by
  cases h with
  | idle => exact .inl rfl
  | undrawn => exact .inl rfl
  | mixed => exact .inr ⟨_, rfl⟩

/-- Mixing up keeps the number of members. -/
lemma Shuffled.length_eq (h : Shuffled sp d st r) :
    r.2.1.members.length = st.1.members.length := by
  cases h with
  | idle => rfl
  | undrawn h => rfl
  | mixed hdrawn hfresh =>
    exact (sp.sorting.sorted_perm _ _).length_eq.trans (length_refreshed hdrawn hfresh)

end Breeding

/-! ### The start -/

namespace Evolution

/-- What drawing and evaluating a population comes to under some schedule. -/
inductive Founded (plan : Plan ι) (s : Session) : Except Error (Population ι) × Session → Prop
  /-- There are no founders. -/
  | undrawn {e : Error} {t : Session}
    (h : Run.draw (newborns plan.newborn plan.rules.populationSize) s = (.error e, t)) :
    Founded plan s (.error e, t)
  /-- The founders are evaluated, and they are sorted if that succeeds. -/
  | evaluated {drawn founders : List ι} {outcome : Except Error Unit} {t u : Session}
    (hdrawn : Run.draw (newborns plan.newborn plan.rules.populationSize) s = (.ok drawn, t))
    (hfounders : plan.species.Evaluated drawn t outcome founders u) :
    Founded plan s
      (do outcome; Population.ofMembers plan.species plan.rules.direction founders, u)

/-- The first population is what this comes to where every founder waits for those before it. -/
theorem founded_firstPopulation (plan : Plan ι) (s : Session) :
    Founded plan s (firstPopulation plan s) := by
  rw [firstPopulation, Act.bind_apply]
  rcases hdrawn : Run.draw (newborns plan.newborn plan.rules.populationSize) s
    with ⟨e | drawn, t⟩
  · exact .undrawn hdrawn
  · have hevaluated := Founded.evaluated hdrawn (plan.species.evaluated_evaluateAll drawn t)
    simp only [Species.evaluated, Act.bind_apply, Act.lift]
    generalize plan.species.evaluateAll drawn t = r at hevaluated
    obtain ⟨e | ⟨⟩, founders, u⟩ := r <;> exact hevaluated

end Evolution

end FuzzyForest
