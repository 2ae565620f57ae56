/-
Runs of closed species.

A run that draws from a closed species and keeps to a closed species comes to its end, whatever its
clock and its source are, unless the source is exhausted or a sort of many members breaks off; and
no generation is discarded on the way.
-/
import FuzzyForest.Evolution.Run
import FuzzyForest.Proofs.ClosedSpecies

namespace FuzzyForest.Evolution

open Act (Returns Triple)

variable {ι α β : Type}

/-- A discarded generation is reported in a trail only if it was reported before or is told of an
event. -/
def Accounted (plan : Plan ι) (before : Journal) (trail : Trail ι) : Prop :=
  ∀ n ∈ trail.2.journal.discards, n ∈ before ∨ ∃ e ∈ trail.1, n ∈ plan.notes e

lemma accounted_self (plan : Plan ι) (trail : Trail ι) : Accounted plan trail.2.journal trail :=
  fun _ h => .inl (List.mem_of_mem_filter h)

/-- A part of a run with `n` members gives a result in `Q` and discards no generation, unless it
breaks down. -/
def Yields (plan : Plan ι) (n : Nat) (before : Journal) (m : Evolving ι α) (Q : α → Prop) : Prop :=
  Triple (Accounted plan before) m (fun a trail => Q a ∧ Accounted plan before trail)
    fun e trail => e.IsBreakdown n ∧ Accounted plan before trail

namespace Yields

variable {plan : Plan ι} {n : Nat} {before : Journal} {Q : α → Prop}

lemma pure {a : α} (h : Q a) : Yields plan n before (Pure.pure a) Q :=
  Triple.pure fun _ hs => ⟨h, hs⟩

lemma bind {m : Evolving ι β} {f : β → Evolving ι α} {R : β → Prop} (hm : Yields plan n before m R)
    (hf : ∀ b, R b → Yields plan n before (f b) Q) : Yields plan n before (m >>= f) Q :=
  Triple.bind hm fun b trail hb => hf b hb.1 trail hb.2

lemma ite {c : Prop} [Decidable c] {l m : Evolving ι α} (hl : c → Yields plan n before l Q)
    (hm : ¬c → Yields plan n before m Q) : Yields plan n before (if c then l else m) Q := by
  split
  · exact hl ‹_›
  · exact hm ‹_›

lemma quietly {m : Run α} (h : Run.YieldsUnless (·.IsBreakdown n) m Q) :
    Yields plan n before (Evolution.quietly m) Q := by
  refine Triple.within fun (events, s) htrail t ht => ?_
  cases ht
  have := h s.journal.discards s rfl
  rcases hm : m s with ⟨e | a, u⟩ <;> rw [hm] at this
  · exact ⟨this.1, fun n hn => htrail n (this.2 ▸ hn)⟩
  · exact ⟨this.1, fun n hn => htrail n (this.2 ▸ hn)⟩

lemma tell (e : Event ι) : Yields plan n before (Evolution.tell plan e) fun _ => True := by
  rintro ⟨events, s⟩ htrail
  refine ⟨trivial, ?_⟩
  intro n hn
  obtain ⟨hmem, hreport⟩ := List.mem_filter.mp hn
  rcases List.mem_append.mp hmem with hmem | hmem
  · exact .inr ⟨e, List.mem_cons_self, List.mem_reverse.mp hmem⟩
  · exact (htrail n (List.mem_filter.mpr ⟨hmem, hreport⟩)).imp_right
      fun ⟨e', he', hn'⟩ => ⟨e', List.mem_cons_of_mem _ he', hn'⟩

end Yields

section

variable {plan : Plan ι} {before : Journal} {Good : ι → Prop} {n : Nat}

/-! ### The start -/

lemma returns_newborns {newborn : Draw ι} (h : Returns newborn Good) (n : Nat) :
    Returns (newborns newborn n) fun xs => xs.length = n ∧ ∀ x ∈ xs, Good x := by
  induction n with
  | zero => exact .pure ⟨rfl, nofun⟩
  | succ n ih =>
    refine h.bind fun x hx => ih.bind fun xs hxs => .pure ⟨?_, ?_⟩
    · rw [List.length_cons, hxs.1]
    · exact List.forall_mem_cons.mpr ⟨hx, hxs.2⟩

/-- The first population consists of what is drawn. -/
lemma yields_firstPopulation (hclosed : plan.species.IsClosed Good)
    (hnewborn : Returns plan.newborn Good) (hsize : 2 ≤ plan.rules.populationSize) :
    Run.YieldsUnless (·.IsBreakdown plan.rules.populationSize) (firstPopulation plan)
      (Population.Consists Good plan.rules.populationSize) := by
  intro reports s hs
  have hdraw := (Run.Yields.draw (returns_newborns hnewborn plan.rules.populationSize)) reports s hs
  have hfounded := founded_firstPopulation plan s
  generalize firstPopulation plan s = r at hfounded
  cases hfounded with
  | undrawn h =>
    rw [h] at hdraw
    exact ⟨.inl hdraw.1, hdraw.2⟩
  | @evaluated drawn founders outcome t u hdrawn hfounders =>
    rw [hdrawn] at hdraw
    obtain ⟨⟨hdrawnSize, hgood⟩, hreports⟩ := hdraw
    obtain ⟨rfl, hys, hu⟩ := hclosed.evaluated hgood hfounders
    have hlength : founders.length = plan.rules.populationSize :=
      hfounders.length_eq.trans hdrawnSize
    have hmembers := Population.Consists.ofMembers hlength hys
    dsimp only [bind, Except.bind]
    rw [Population.ofMembers_of_two_le (hlength ▸ hsize)]
    cases hsort : Population.checkSort plan.species plan.rules.direction ⟨founders, none, none⟩ with
    | error e => exact ⟨hmembers.isBreakdown_of_checkSort hsort, hu.trans hreports⟩
    | ok => exact ⟨hmembers.ranked _ _, hu.trans hreports⟩

lemma exists_winner {p : Population ι} (hp : p.Consists Good n) (hn : 0 < n) :
    ∃ winner, p.winner? = some winner ∧ Good winner := by
  obtain ⟨winner, hwinner, hgood⟩ := hp.getElem? hn
  exact ⟨winner, by rw [Population.winner?, List.head?_eq_getElem?, hwinner], hgood⟩

lemma yields_tellWinner (generation : Nat) {p : Population ι} (hp : p.Consists Good n)
    (hn : 0 < n) : Yields plan n before (tellWinner plan generation p) fun _ => True := by
  obtain ⟨winner, hwinner, -⟩ := exists_winner hp hn
  rw [tellWinner, hwinner]
  exact .tell _

lemma yields_begun (hclosed : plan.species.IsClosed Good) (hnewborn : Returns plan.newborn Good)
    (hsize : 2 ≤ plan.rules.populationSize) :
    Yields plan plan.rules.populationSize before (begun plan) fun st =>
      st.population.Consists Good plan.rules.populationSize := by
  refine (Yields.tell _).bind fun _ _ => ?_
  refine (Yields.quietly (yields_firstPopulation hclosed hnewborn hsize)).bind fun p hp => ?_
  exact (yields_tellWinner 0 hp (by omega)).bind fun _ _ => .pure hp

/-! ### Generations -/

/-- A generation is never discarded. -/
lemma yields_stepped (hclosed : plan.species.IsClosed Good) (hn : 2 ≤ n) (generation : Nat)
    {p : Population ι} (hp : p.Consists Good n) :
    Run.YieldsUnless (·.IsBreakdown n) (stepped plan generation p)
      (Population.Consists Good n) := by
  intro reports s hs
  have hstep := Breeding.yields_step hclosed plan.rules hn plan.rules.crossoverRate
    plan.rules.mutationRate reports (p, s) ⟨hp, hs⟩
  simp only [stepped]
  rcases hrun : Breeding.step plan.species plan.rules plan.rules.crossoverRate
    plan.rules.mutationRate (p, s) with ⟨e | ⟨⟩, q, t⟩ <;> rw [hrun] at hstep
  · -- a breakdown is no failed evaluation
    simp only [hstep.1.isEvaluationFailure]
    exact hstep
  · exact hstep.2

lemma yields_improved (generation : Nat) {p : Population ι} (hp : p.Consists Good n) (hn : 0 < n)
    (best : Float) : Yields plan n before (improved plan generation p best) fun _ => True :=
  .ite (fun _ => (yields_tellWinner generation hp hn).bind fun _ _ => .pure trivial)
    fun _ => .pure trivial

lemma yields_bred (hclosed : plan.species.IsClosed Good) (hn : 2 ≤ n) {st : Stage ι}
    (hst : st.population.Consists Good n) :
    Yields plan n before (bred plan st) fun st => st.population.Consists Good n := by
  refine (Yields.quietly (yields_stepped hclosed hn _ hst)).bind fun p hp => ?_
  refine (yields_improved _ hp (by omega) _).bind fun best _ => ?_
  exact .ite (fun _ => (Yields.tell _).bind fun _ _ => .pure hp) fun _ => .pure hp

lemma yields_bredOn (hclosed : plan.species.IsClosed Good) (hn : 2 ≤ n) (clock : Nat → Float)
    (left : Nat) {st : Stage ι} (hst : st.population.Consists Good n) :
    Yields plan n before (bredOn plan clock left st) fun r => r.1.population.Consists Good n := by
  induction left generalizing st with
  | zero => exact .pure hst
  | succ left ih =>
    intro trail htrail
    rw [bredOn]
    cases stop? plan st (clock st.generation) with
    | some reason => exact ⟨hst, htrail⟩
    | none =>
      have hnext : Yields plan n before (bred plan st) _ := yields_bred hclosed hn hst
      have hbred := hnext trail htrail
      dsimp only
      rcases hrun : bred plan st trail with ⟨e | st', trail'⟩ <;> rw [hrun] at hbred
      · exact hbred
      · exact ih hbred.1 trail' hbred.2

/-! ### Whole runs -/

/-- A population in range has two members at least. -/
lemma two_le_of_check {rules : EvolutionSettings} (h : rules.check = .ok ()) :
    2 ≤ rules.populationSize := by
  rw [EvolutionSettings.check] at h
  split at h
  · cases h
  · omega

/-- **A run of a closed species comes to its end and discards no generation**, unless it breaks
down. -/
theorem yields_run (hclosed : plan.species.IsClosed Good) (hnewborn : Returns plan.newborn Good)
    (hcheck : plan.rules.check = .ok ()) (clock : Nat → Float) :
    Yields plan plan.rules.populationSize before (run plan clock) fun outcome =>
      Good outcome.winner := by
  have hsize := two_le_of_check hcheck
  refine (yields_begun hclosed hnewborn hsize).bind fun st hst => ?_
  refine (yields_bredOn hclosed hsize clock _ hst).bind fun r hr => ?_
  obtain ⟨winner, hwinner, hgood⟩ := exists_winner hr (by omega)
  rcases r with ⟨st, reason⟩
  dsimp only at hwinner ⊢
  rw [finished, hwinner]
  exact (Yields.tell _).bind fun _ _ => .pure hgood

end

end FuzzyForest.Evolution
