/-
Blind species.

A species is blind if its individuals see nothing of a session but its random words: not the number
of instructions run so far, and not the journal.  What a breeding step of a blind species comes to
therefore depends on the members of the population and on the source alone, since selection
replaces whatever offspring there was, and so does what any number of later steps come to.

The main results are
* `Breeding.step_alike`: one step from the same members and the same source;
* `Breeding.stepsFrom_eq`: any number of steps;
* `Probe.isBlind_species` and `Forest.isBlind_species`: probes and fuzzy forests are blind.
-/
import FuzzyForest.Population.Breeding
import FuzzyForest.Population.Probe
import FuzzyForest.Proofs.CacheCoherence

namespace FuzzyForest

variable {σ τ ι α β : Type}

/-! ### Two runs of a computation -/

namespace Act

/-- From states that are related by `R`, two runs end alike: with the same result and states that
are related by `S`, or with the same error and states that are related by `E`. -/
def EndsAlike (R : σ → σ → Prop) (m : Act σ α) (S E : σ → σ → Prop) : Prop :=
  ∀ s t, R s t → (∃ a s' t', m s = (.ok a, s') ∧ m t = (.ok a, t') ∧ S s' t') ∨
    ∃ e s' t', m s = (.error e, s') ∧ m t = (.error e, t') ∧ E s' t'

namespace EndsAlike

variable {R S E S' E' : σ → σ → Prop}

lemma pure {a : α} (h : ∀ s t, R s t → S s t) : EndsAlike R (Pure.pure a) S E :=
  fun s t hR => .inl ⟨a, s, t, rfl, rfl, h s t hR⟩

lemma fail {e : Error} (h : ∀ s t, R s t → E s t) : EndsAlike R (Act.fail e : Act σ α) S E :=
  fun s t hR => .inr ⟨e, s, t, rfl, rfl, h s t hR⟩

lemma mono {m : Act σ α} (h : EndsAlike R m S E) (hS : ∀ s t, S s t → S' s t)
    (hE : ∀ s t, E s t → E' s t) : EndsAlike R m S' E' := by
  intro s t hR
  obtain ⟨a, s', t', hs, ht, h⟩ | ⟨e, s', t', hs, ht, h⟩ := h s t hR
  · exact .inl ⟨a, s', t', hs, ht, hS _ _ h⟩
  · exact .inr ⟨e, s', t', hs, ht, hE _ _ h⟩

lemma bind {m : Act σ β} {f : β → Act σ α} (hm : EndsAlike R m S E)
    (hf : ∀ b, EndsAlike S (f b) S' E) : EndsAlike R (m >>= f) S' E := by
  intro s t hR
  obtain ⟨b, s', t', hs, ht, h⟩ | ⟨e, s', t', hs, ht, h⟩ := hm s t hR
  · rw [bind_apply, bind_apply, hs, ht]
    exact hf b s' t' h
  · exact .inr ⟨e, s', t', by rw [bind_apply, hs], by rw [bind_apply, ht], h⟩

lemma ite {c : Prop} [Decidable c] {m n : Act σ α} (hm : EndsAlike R m S E)
    (hn : EndsAlike R n S E) : EndsAlike R (if c then m else n) S E := by
  split
  · exact hm
  · exact hn

/-- The results and the states of two runs. -/
lemma eq_and {m : Act σ α} (h : EndsAlike R m S S) {s t : σ} (hR : R s t) :
    (m s).1 = (m t).1 ∧ S (m s).2 (m t).2 := by
  obtain ⟨a, s', t', hs, ht, h⟩ | ⟨e, s', t', hs, ht, h⟩ := h s t hR <;> rw [hs, ht]
  · exact ⟨rfl, h⟩
  · exact ⟨rfl, h⟩

end EndsAlike

end Act

open Act (EndsAlike)

/-! ### Computations that see the source alone -/

namespace Run

/-- Whatever else there is in a session, a computation comes to the same with the same source. -/
def IsBlind (m : Run α) : Prop :=
  EndsAlike (fun s t => s.source = t.source) m (fun s t => s.source = t.source)
    fun s t => s.source = t.source

namespace IsBlind

lemma pure (a : α) : IsBlind (Pure.pure a : Run α) := EndsAlike.pure fun _ _ h => h

lemma bind {m : Run β} {f : β → Run α} (hm : IsBlind m) (hf : ∀ b, IsBlind (f b)) :
    IsBlind (m >>= f) := EndsAlike.bind hm hf

lemma ite {c : Prop} [Decidable c] {m n : Run α} (hm : IsBlind m) (hn : IsBlind n) :
    IsBlind (if c then m else n) := EndsAlike.ite hm hn

lemma draw (d : Draw α) : IsBlind (Run.draw d) := by
  intro s t hst
  simp only [Run.draw, Act.within, hst]
  rcases d t.source with ⟨e | a, source⟩
  · exact .inr ⟨e, _, _, rfl, rfl, rfl⟩
  · exact .inl ⟨a, _, _, rfl, rfl, rfl⟩

lemma note (n : Note) : IsBlind (Run.note n) :=
  fun _ _ hst => .inl ⟨(), _, _, rfl, rfl, hst⟩

end IsBlind

end Run

/-- Two things that are related by `R`, with sessions of the same source. -/
def Beside (R : τ → τ → Prop) (x y : τ × Session) : Prop := R x.1 y.1 ∧ x.2.source = y.2.source

/-- The same thing with sessions of the same source. -/
def SameBut : τ × Session → τ × Session → Prop := Beside Eq

/-- Evaluation and crossing see nothing of a session but its source. -/
structure Species.IsBlind (sp : Species ι) : Prop where
  evaluate : EndsAlike SameBut sp.evaluate SameBut SameBut
  crossed : ∀ p a b, (sp.crossed p a b).IsBlind

/-- The individuals that are evaluated one after the other, and the outcome. -/
lemma Species.IsBlind.evaluateAll {sp : Species ι} (h : sp.IsBlind) (xs : List ι) {s t : Session}
    (hst : s.source = t.source) : (sp.evaluateAll xs s).1 = (sp.evaluateAll xs t).1 ∧
      SameBut (sp.evaluateAll xs s).2 (sp.evaluateAll xs t).2 := by
  induction xs generalizing s t with
  | nil => exact ⟨rfl, rfl, hst⟩
  | cons x xs ih =>
    obtain ⟨a, ⟨y, s'⟩, ⟨_, t'⟩, hs, ht, rfl, hst'⟩ | ⟨e, ⟨y, s'⟩, ⟨_, t'⟩, hs, ht, rfl, hst'⟩ :=
      h.evaluate (x, s) (x, t) ⟨rfl, hst⟩
    · obtain ⟨hresult, hrest, hsource⟩ := ih hst'
      simp only [Species.evaluateAll, hs, ht]
      exact ⟨hresult, congrArg (y :: ·) hrest, hsource⟩
    · simp only [Species.evaluateAll, hs, ht, true_and]
      exact ⟨rfl, hst'⟩

lemma Species.IsBlind.evaluated {sp : Species ι} (h : sp.IsBlind) (xs : List ι) :
    (sp.evaluated xs).IsBlind := by
  intro s t hst
  obtain ⟨hresult, hfresh, hsource⟩ := h.evaluateAll xs hst
  exact .inl ⟨_, _, _, rfl, by simp only [Species.evaluated, hresult, hfresh], hsource⟩

/-! ### Breeding -/

namespace Breeding

/-- A computation comes to the same on one population with the same source. -/
def IsBlind (m : Breeding ι α) : Prop := EndsAlike SameBut m SameBut SameBut

namespace IsBlind

lemma pure (a : α) : IsBlind (Pure.pure a : Breeding ι α) := EndsAlike.pure fun _ _ h => h

lemma fail (e : Error) : IsBlind (Act.fail e : Breeding ι α) := EndsAlike.fail fun _ _ h => h

lemma bind {m : Breeding ι β} {f : β → Breeding ι α} (hm : IsBlind m) (hf : ∀ b, IsBlind (f b)) :
    IsBlind (m >>= f) := EndsAlike.bind hm hf

lemma ite {c : Prop} [Decidable c] {m n : Breeding ι α} (hm : IsBlind m) (hn : IsBlind n) :
    IsBlind (if c then m else n) := EndsAlike.ite hm hn

lemma population : IsBlind (Breeding.population (ι := ι)) := by
  rintro ⟨p, s⟩ ⟨_, t⟩ ⟨rfl, hst⟩
  exact .inl ⟨p, _, _, rfl, rfl, rfl, hst⟩

/-- An operation that looks at the population first, and sees nothing of it that differs. -/
lemma population_bind {R : Population ι → Population ι → Prop}
    {S E : Population ι × Session → Population ι × Session → Prop}
    {f : Population ι → Breeding ι α} (hf : ∀ p q, R p q → f q = f p)
    (h : ∀ p, EndsAlike (Beside R) (f p) S E) :
    EndsAlike (Beside R) (Breeding.population >>= f) S E := by
  rintro ⟨p, s⟩ ⟨q, t⟩ hR
  have hright : (Breeding.population >>= f) (q, t) = f p (q, t) := by
    rw [← hf p q hR.1]
    rfl
  rw [hright]
  exact h p (p, s) (q, t) hR

lemma modify (f : Population ι → Population ι) : IsBlind (Breeding.modify f) := by
  rintro ⟨p, s⟩ ⟨_, t⟩ ⟨rfl, hst⟩
  exact .inl ⟨(), _, _, rfl, rfl, rfl, hst⟩

lemma lift (r : Except Error α) : IsBlind (Act.lift r : Breeding ι α) := by
  intro s t hst
  cases r with
  | error e => exact .inr ⟨e, s, t, rfl, rfl, hst⟩
  | ok a => exact .inl ⟨a, s, t, rfl, rfl, hst⟩

/-- What is done aside does not even see the population. -/
lemma aside_beside (R : Population ι → Population ι → Prop) {m : Run α} (h : m.IsBlind) :
    EndsAlike (Beside R) (Breeding.aside m) (Beside R) (Beside R) := by
  rintro ⟨p, s⟩ ⟨q, t⟩ ⟨hR, hst⟩
  simp only [Breeding.aside, Act.within]
  obtain ⟨a, s', t', hs, ht, h⟩ | ⟨e, s', t', hs, ht, h⟩ := h s t hst <;> rw [hs, ht]
  · exact .inl ⟨a, _, _, rfl, rfl, hR, h⟩
  · exact .inr ⟨e, _, _, rfl, rfl, hR, h⟩

lemma aside {m : Run α} (h : m.IsBlind) : IsBlind (Breeding.aside m : Breeding ι α) :=
  aside_beside Eq h

lemma draw (d : Draw α) : IsBlind (Breeding.draw d : Breeding ι α) := aside (.draw d)

lemma note (n : Note) : IsBlind (Breeding.note n : Breeding ι Unit) := aside (.note n)

end IsBlind

/-- The same members with sessions of the same source. -/
def SameMembers : Population ι × Session → Population ι × Session → Prop :=
  Beside fun p q => p.members = q.members

lemma sameMembers_of_sameBut (st st' : Population ι × Session) (h : SameBut st st') :
    SameMembers st st' := ⟨congrArg _ h.1, h.2⟩

section

variable {sp : Species ι} {rules : EvolutionSettings}

lemma isBlind_parents (p : Population ι) : (parents sp rules p).IsBlind := by
  have hdistinct : ∀ (spin : Draw ℕ) (size other : ℕ), (distinct spin size other).IsBlind := by
    intro spin size other
    refine (Run.IsBlind.draw _).bind fun place => ?_
    cases place with
    | some i => exact .pure i
    | none => exact (Run.IsBlind.note _).bind fun _ => .pure _
  rw [parents]
  split
  · exact .pure _
  · exact (Run.IsBlind.draw _).bind fun _ => (hdistinct _ _ _).bind fun _ => .pure _
  · exact (hdistinct _ _ _).bind fun _ => .pure _

/-- Selection sees the members alone, and it replaces the offspring. -/
lemma select_alike : EndsAlike SameMembers (select sp rules) SameBut SameMembers := by
  refine IsBlind.population_bind ?_ fun p => ?_
  · rintro ⟨members, _, _⟩ ⟨_, _, _⟩ rfl
    rfl
  · refine (IsBlind.aside_beside _ (isBlind_parents p)).bind fun places =>
      (IsBlind.aside_beside _ (.note _)).bind fun _ => ?_
    split
    · rintro ⟨⟨_, _, _⟩, s⟩ ⟨⟨_, _, _⟩, t⟩ ⟨rfl, hst⟩
      exact .inl ⟨_, _, _, rfl, rfl, rfl, hst⟩
    · exact .fail fun _ _ h => h

lemma isBlind_mutate (rate : Float) : IsBlind (mutate sp rate) :=
  IsBlind.population.bind fun _ => (IsBlind.draw _).bind fun _ => (IsBlind.draw _).bind fun _ =>
    .modify _

lemma isBlind_migrateOne (child : ι) : IsBlind (migrateOne sp rules child) := by
  have hsettle : ∀ position, IsBlind (settle sp rules.direction position) := by
    intro position
    refine IsBlind.population.bind fun p => ?_
    split
    · exact (IsBlind.modify _).bind fun _ => .pure _
    · exact .fail _
  refine IsBlind.population.bind fun p => .ite ?_ ?_
  · exact (IsBlind.note _).bind fun _ => .pure _
  · refine (IsBlind.draw _).bind fun target => ?_
    split
    · exact .fail _
    · exact .ite ((IsBlind.modify _).bind fun _ => (hsettle target).bind fun _ => .pure _) (.pure _)

lemma isBlind_offer (child : Option ι) : IsBlind (offer sp rules child) := by
  cases child with
  | none => exact .pure _
  | some child => exact (isBlind_migrateOne child).bind fun _ => .pure _

lemma isBlind_migrate : IsBlind (migrate sp rules) :=
  IsBlind.population.bind fun _ => (IsBlind.modify _).bind fun _ =>
    (isBlind_offer _).bind fun _ => isBlind_offer _

lemma isBlind_mutants : IsBlind (mutants sp) :=
  IsBlind.population.bind fun _ => (IsBlind.note _).bind fun _ => .draw _

lemma isBlind_sort (d : Direction) : IsBlind (sort sp d) :=
  IsBlind.population.bind fun _ => (IsBlind.modify _).bind fun _ => .lift _

variable (hsp : sp.IsBlind)

include hsp

lemma isBlind_recombine (rate : Float) : IsBlind (recombine sp rate) := by
  refine IsBlind.population.bind fun p => ?_
  split
  · refine (IsBlind.draw _).bind fun roll => .ite ?_ (.pure _)
    exact (IsBlind.note _).bind fun _ => (IsBlind.aside (hsp.crossed _ _ _)).bind fun _ => .modify _
  · exact .pure _

lemma isBlind_evaluatedChild (child : Option ι) : (evaluatedChild sp child).IsBlind := by
  cases child with
  | none => exact .pure _
  | some child =>
    intro s t hst
    obtain ⟨a, ⟨x, s'⟩, ⟨_, t'⟩, hs, ht, rfl, h⟩ | ⟨e, ⟨x, s'⟩, ⟨_, t'⟩, hs, ht, rfl, h⟩ :=
      hsp.evaluate (child, s) (child, t) ⟨rfl, hst⟩ <;> simp only [evaluatedChild, hs, ht]
    · exact .inl ⟨_, _, _, rfl, rfl, h⟩
    · exact .inr ⟨_, _, _, rfl, rfl, h⟩

lemma isBlind_evaluateChildren : IsBlind (evaluateChildren sp) :=
  IsBlind.population.bind fun _ => (IsBlind.modify _).bind fun _ =>
    (IsBlind.aside (isBlind_evaluatedChild hsp _)).bind fun _ =>
    (IsBlind.aside (isBlind_evaluatedChild hsp _)).bind fun _ => .modify _

lemma isBlind_shuffle (d : Direction) : IsBlind (shuffle sp d) :=
  IsBlind.population.bind fun _ => .ite (isBlind_mutants.bind fun drawn =>
    (IsBlind.aside (hsp.evaluated drawn)).bind fun _ => (IsBlind.modify _).bind fun _ =>
    (isBlind_sort d).bind fun _ => (IsBlind.lift _).bind fun _ => .pure _) (.pure _)

/-- **From the same members and the same source a step comes to the same**, whatever offspring and
whatever else there was before. -/
theorem step_alike (rules : EvolutionSettings) (crossoverRate mutationRate : Float) :
    EndsAlike SameMembers (step sp rules crossoverRate mutationRate) SameMembers SameMembers := by
  refine select_alike.bind fun _ => ?_
  refine EndsAlike.mono (S := SameBut) (E := SameBut) ?_ sameMembers_of_sameBut
    sameMembers_of_sameBut
  refine (isBlind_recombine hsp _).bind fun _ => (isBlind_mutate _).bind fun _ =>
    (isBlind_evaluateChildren hsp).bind fun _ => isBlind_migrate.bind fun _ => ?_
  exact .ite ((isBlind_shuffle hsp _).bind fun _ => .pure _) (.pure _)

omit hsp

/-- What later steps come to: the result of each, with the members that it leaves. -/
def stepsFrom (sp : Species ι) (rules : EvolutionSettings) :
    Population ι × Session → (rates : List (Float × Float)) → List (Except Error Unit × List ι)
  | _, [] => []
  | st, (crossoverRate, mutationRate) :: rates =>
    let (r, st) := step sp rules crossoverRate mutationRate st
    (r, st.1.members) :: stepsFrom sp rules st rates

include hsp in
/-- **So do any number of steps.** -/
theorem stepsFrom_eq (rules : EvolutionSettings) {st st' : Population ι × Session}
    (h : SameMembers st st') (rates : List (Float × Float)) :
    stepsFrom sp rules st rates = stepsFrom sp rules st' rates := by
  induction rates generalizing st st' with
  | nil => rfl
  | cons rate rates ih =>
    obtain ⟨hresult, hsame⟩ := (step_alike hsp rules rate.1 rate.2).eq_and h
    simp only [stepsFrom, hresult, hsame.1, ih hsame]

end

end Breeding

/-! ### Blind species -/

/-- Probes see nothing. -/
lemma Probe.isBlind_species : Probe.species.IsBlind where
  evaluate := by
    rintro ⟨x, s⟩ ⟨_, t⟩ ⟨rfl, hst⟩
    simp only [species]
    split
    · exact .inr ⟨_, _, _, rfl, rfl, rfl, hst⟩
    · exact .inl ⟨_, _, _, rfl, rfl, rfl, hst⟩
  crossed p a b := .pure _

namespace Forest

attribute [ext] Forest

/-- An evaluation fails or not, and leaves the same forest, whatever the number of instructions that
were run before. -/
lemma evaluate_count (ds : Dataset Float) (settings : ModelSettings) (f : Forest Float)
    (count count' : ℕ) :
    let e := evaluate (.fuzzy ds settings) f count
    let e' := evaluate (.fuzzy ds settings) f count'
    e'.failure? = e.failure? ∧ e'.forest = e.forest := by
  let ctx : Context Float := .fuzzy ds settings
  obtain ⟨hfailure, hestimates, hrates⟩ :
      (evaluate ctx f count').failure? = (evaluate ctx f count).failure? ∧
        (evaluate ctx f count').forest.estimates = (evaluate ctx f count).forest.estimates ∧
        ((evaluate ctx f count).failure? = none →
          (evaluate ctx f count').forest.p1 = (evaluate ctx f count).forest.p1 ∧
            (evaluate ctx f count').forest.p2 = (evaluate ctx f count).forest.p2) :=
    evaluate_congr rfl rfl count count'
  obtain ⟨hp1, hp2⟩ : (evaluate ctx f count').forest.p1 = (evaluate ctx f count).forest.p1 ∧
      (evaluate ctx f count').forest.p2 = (evaluate ctx f count).forest.p2 := by
    cases h : (evaluate ctx f count).failure? with
    | none => exact hrates h
    | some e =>
      obtain ⟨hp1, hp2⟩ := rates_of_failure h
      obtain ⟨hp1', hp2'⟩ := rates_of_failure (hfailure.trans h)
      exact ⟨hp1'.trans hp1.symm, hp2'.trans hp2.symm⟩
  obtain ⟨hcode, houtputs⟩ := evaluate_code ctx f count
  obtain ⟨hcode', houtputs'⟩ := evaluate_code ctx f count'
  refine ⟨hfailure, Forest.ext (hcode'.trans hcode.symm) (houtputs'.trans houtputs.symm)
    hestimates ?_ hp1 hp2⟩
  exact (evaluate_forest ctx f count').2.trans (evaluate_forest ctx f count).2.symm

/-- Fuzzy forests see the random words alone. -/
lemma isBlind_species (ds : Dataset Float) (settings : ModelSettings)
    (sorting : Sorting (Forest Float)) :
    (species (.fuzzy ds settings) sorting).IsBlind where
  evaluate := by
    rintro ⟨f, s⟩ ⟨_, t⟩ ⟨rfl, hst⟩
    obtain ⟨hfailure, hforest⟩ :=
      evaluate_count ds settings { f with fitness? := none } t.executed s.executed
    cases h : (evaluate (.fuzzy ds settings) { f with fitness? := none } t.executed).failure? <;>
      simp only [species, computeFitness, refresh, hfailure, hforest, h]
    · exact .inl ⟨_, _, _, rfl, rfl, rfl, hst⟩
    · exact .inr ⟨_, _, _, rfl, rfl, rfl, hst⟩
  crossed p a b := by
    show (crossed _ p a b).IsBlind
    rw [crossed]
    refine .ite ((Run.IsBlind.note _).bind fun _ => .pure _) ?_
    refine (Run.IsBlind.draw _).bind fun r => .ite (.pure _) ?_
    exact (Run.IsBlind.note _).bind fun _ => .pure _

end Forest

end FuzzyForest
