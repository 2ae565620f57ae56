/-
Failed steps.

A step makes offspring of two members, evaluates it and offers it to the population.  Nothing is
written to the members before both offspring are evaluated: the failure of either one discards
both, and the members stay as they are.  A failure in mixing up comes after the offspring was
offered.  In no case does a step leave offspring behind, and so a failed evaluation shows in later
steps by the random words that are gone.

The main results are
* `Breeding.triple_beget`: two offspring are made of the members, and these stay;
* `Breeding.evaluateChildren_ends`: the first offspring that cannot be evaluated decides;
* `Breeding.failed_step_atomic`: a step by the stage that it comes to.
-/
import FuzzyForest.Proofs.BlindSpecies
import FuzzyForest.Proofs.DistinctParents

namespace FuzzyForest

open Act (Triple)

variable {ι α : Type}

/-- Mutation and crossing keep a property of individuals, unless they fail with an error in
`Fault`. -/
structure Species.Breeds (sp : Species ι) (Good : ι → Prop) (Fault : Error → Prop) : Prop where
  stalled : Fault .stalled
  mutated : ∀ rate x, Good x →
    Triple (fun _ => True) (sp.mutated rate x) (fun y _ => Good y) fun e _ => Fault e
  crossed : ∀ rate a b, Good a → Good b →
    Triple (fun _ => True) (sp.crossed rate a b) (fun r _ => Good r.1 ∧ Good r.2) fun e _ => Fault e

/-- Of any individuals anything can be bred, or for any reason nothing. -/
lemma Species.breeds_any (sp : Species ι) : sp.Breeds (fun _ => True) fun _ => True where
  stalled := trivial
  mutated _ _ _ := Triple.const
  crossed _ _ _ _ _ := Triple.const.mono (fun _ h => h) (fun _ _ _ => ⟨trivial, trivial⟩)
    fun _ _ h => h

/-- Probes are bred for as long as there are random words. -/
lemma Probe.breeds_species : species.Breeds (fun _ => True) (· = .stalled) where
  stalled := rfl
  mutated _ _ _ := Draw.returns_unit.bind fun _ _ =>
    .ite (fun _ => Draw.returns_unit.bind fun _ _ => .pure trivial) fun _ => .pure trivial
  crossed _ _ _ _ _ := Triple.pure fun _ _ => ⟨trivial, trivial⟩

namespace Breeding

open Population

/-! ### Making offspring -/

/-- The part of a breeding step before the evaluation of the offspring. -/
def beget (sp : Species ι) (rules : EvolutionSettings) (crossoverRate mutationRate : Float) :
    Breeding ι Unit := do
  let _ ← select sp rules
  recombine sp crossoverRate
  mutate sp mutationRate

/-- The members of a population, with a son and a daughter. -/
def Begotten (Good : ι → Prop) (p q : Population ι) : Prop :=
  ∃ son daughter, Good son ∧ Good daughter ∧
    q = { p with son := some son, daughter := some daughter }

section

variable {sp : Species ι} {rules : EvolutionSettings} {Good : ι → Prop} {Fault : Error → Prop}
  {p q : Population ι}

/-- What is done aside fails as it does anywhere, and does not touch the members. -/
lemma triple_aside_fault {m : Run α} {R : α → Prop} (hq : q.members = p.members)
    (h : Triple (fun _ => True) m (fun a _ => R a) fun e _ => Fault e) :
    Triple (fun st => st.1 = q) (aside m) (fun a st => st.1 = q ∧ R a)
      fun e st => Fault e ∧ st.1.members = p.members :=
  (triple_aside_ends h).mono (fun _ h => h) (fun _ _ h => h)
    fun _ _ h => ⟨h.1, h.2 ▸ hq⟩

lemma triple_draw_fault {d : Draw α} {R : α → Prop} (hq : q.members = p.members)
    (h : Triple (fun _ => True) d (fun a _ => R a) fun e _ => Fault e) :
    Triple (fun st => st.1 = q) (draw d) (fun a st => st.1 = q ∧ R a)
      fun e st => Fault e ∧ st.1.members = p.members :=
  triple_aside_fault hq (Triple.within_const h)

variable (hsp : sp.Breeds Good Fault)

include hsp

lemma triple_recombine (rate : Float) :
    Triple (fun st => Begotten Good p st.1) (recombine sp rate) (fun _ st => Begotten Good p st.1)
      fun e st => Fault e ∧ st.1.members = p.members := by
  refine triple_population_bind fun q hq => ?_
  obtain ⟨son, daughter, hson, hdaughter, rfl⟩ := hq
  have hunit : Triple (fun _ => True) Draw.unit (fun _ _ => True) fun e _ => Fault e := by
    refine Triple.mono Draw.returns_unit (fun _ h => h) (fun _ _ _ => trivial) ?_
    rintro _ _ rfl
    exact hsp.stalled
  refine Triple.bind (triple_draw_fault rfl hunit) fun roll => Triple.assume fun _ => ?_
  split
  · refine Triple.bind (triple_aside_fault (R := fun _ => True) rfl fun _ _ => trivial) fun _ =>
      Triple.assume fun _ => ?_
    refine Triple.bind (triple_aside_fault rfl (hsp.crossed rate son daughter hson hdaughter))
      fun r => Triple.assume fun hr => triple_modify ?_
    rintro _ s rfl
    exact ⟨r.1, r.2, hr.1, hr.2, rfl⟩
  · exact Triple.pure fun st hst => ⟨son, daughter, hson, hdaughter, hst⟩

lemma triple_mutate (rate : Float) :
    Triple (fun st => Begotten Good p st.1) (mutate sp rate) (fun _ st => Begotten Good p st.1)
      fun e st => Fault e ∧ st.1.members = p.members := by
  have hchild : ∀ {child : ι}, Good child →
      Triple (fun _ => True) (mutatedChild sp rate (some child))
        (fun child' _ => ∃ y, child' = some y ∧ Good y) fun e _ => Fault e := fun hchild =>
    Triple.bind (hsp.mutated rate _ hchild) fun y => Triple.pure fun _ hy => ⟨y, rfl, hy⟩
  refine triple_population_bind fun q hq => ?_
  obtain ⟨son, daughter, hson, hdaughter, rfl⟩ := hq
  refine Triple.bind (triple_draw_fault rfl (hchild hson)) fun son' => Triple.assume fun hson' => ?_
  refine Triple.bind (triple_draw_fault rfl (hchild hdaughter)) fun daughter' =>
    Triple.assume fun hdaughter' => triple_modify ?_
  obtain ⟨son', rfl, hson'⟩ := hson'
  obtain ⟨daughter', rfl, hdaughter'⟩ := hdaughter'
  rintro _ s rfl
  exact ⟨son', daughter', hson', hdaughter', rfl⟩

/-- **Two offspring are made of the members, and these stay**, also where that fails. -/
theorem triple_beget (hp : 2 ≤ p.members.length) (hgood : ∀ x ∈ p.members, Good x)
    (crossoverRate mutationRate : Float) :
    Triple (fun st => st.1 = p) (beget sp rules crossoverRate mutationRate)
      (fun _ st => Begotten Good p st.1) fun e st => Fault e ∧ st.1.members = p.members := by
  refine Triple.bind ((triple_select hp).mono (fun _ h => h) ?_ ?_) fun _ =>
    Triple.bind (triple_recombine hsp crossoverRate) fun _ => triple_mutate hsp mutationRate
  · rintro places ⟨q, s⟩ hselected
    cases hselected with
    | copies hson hdaughter hne =>
      exact ⟨_, _, hgood _ (List.mem_of_getElem? hson), hgood _ (List.mem_of_getElem? hdaughter),
        rfl⟩
  · rintro e st ⟨rfl, hst⟩
    exact ⟨hsp.stalled, congrArg members hst⟩

end

/-! ### Evaluating offspring -/

/-- The error of the first of two offspring that cannot be evaluated, and the session then. -/
inductive FailsIn (sp : Species ι) (son daughter : ι) (s : Session) (e : Error) : Session → Prop
  | son {x : ι} {t : Session} (hson : sp.evaluate (son, s) = (.error e, x, t)) :
    FailsIn sp son daughter s e t
  | daughter {fitness : Float} {x y : ι} {t u : Session}
    (hson : sp.evaluate (son, s) = (.ok fitness, x, t))
    (hdaughter : sp.evaluate (daughter, t) = (.error e, y, u)) : FailsIn sp son daughter s e u

/-- **A failing evaluation is that of the first offspring that fails, and it discards both.** -/
theorem evaluateChildren_ends (sp : Species ι) (p : Population ι) (son daughter : ι) (s : Session) :
    match evaluateChildren sp ({ p with son := some son, daughter := some daughter }, s) with
    | (.error e, q, t) =>
      q = { p with son := none, daughter := none } ∧ FailsIn sp son daughter s e t
    | (.ok (), q, _) => q.members = p.members := by
  simp only [evaluateChildren, population, modify, aside, Act.within, Act.bind_apply,
    evaluatedChild]
  rcases hson : sp.evaluate (son, s) with ⟨e | fitness, x, t⟩
  · exact ⟨rfl, .son hson⟩
  · dsimp only
    rcases hdaughter : sp.evaluate (daughter, t) with ⟨e | fitness', y, u⟩
    · exact ⟨rfl, .daughter hson hdaughter⟩
    · rfl

/-! ### Leaving no offspring -/

/-- There is no offspring. -/
def IsChildless (p : Population ι) : Prop := p.son = none ∧ p.daughter = none

/-- The part of a breeding step behind the evaluation of the offspring. -/
def disperse (sp : Species ι) (rules : EvolutionSettings) : Breeding ι Unit := do
  migrate sp rules
  if rules.shuffle then do
    let _ ← shuffle sp rules.direction

section

variable {sp : Species ι} {rules : EvolutionSettings}

/-- A change of the members. -/
lemma keeps_childless {f : Population ι → Population ι}
    (h : ∀ q, (f q).son = q.son ∧ (f q).daughter = q.daughter) : Keeps IsChildless (modify f) :=
  .modify fun q hq => ⟨(h q).1.trans hq.1, (h q).2.trans hq.2⟩

lemma childless_migrateOne (child : ι) : Keeps IsChildless (migrateOne sp rules child) := by
  have hsettle : ∀ position, Keeps IsChildless (settle sp rules.direction position) := by
    intro position
    refine .bind .population fun p => ?_
    split
    · exact .bind (keeps_childless fun _ => ⟨rfl, rfl⟩) fun _ => .pure _
    · exact .fail _
  refine .bind .population fun p => ?_
  split
  · exact .bind (.aside _) fun _ => .pure _
  · refine .bind (.aside _) fun target => ?_
    split
    · exact .fail _
    · split
      · exact .bind (keeps_childless fun _ => ⟨rfl, rfl⟩) fun _ =>
          .bind (hsettle target) fun _ => .pure _
      · exact .pure _

lemma childless_offer (child : Option ι) : Keeps IsChildless (offer sp rules child) := by
  cases child with
  | none => exact .pure _
  | some child => exact .bind (childless_migrateOne child) fun _ => .pure _

/-- Mixing up leaves no offspring where there was none, whatever the schedule. -/
lemma childless_shuffle (d : Direction) : Keeps IsChildless (shuffle sp d) := by
  refine Triple.of_state fun st hst => ?_
  rcases (shuffled_shuffle sp d st).population_cases with h | ⟨fresh, h⟩
  · rwa [h]
  · rw [h]
    exact hst

/-- No offspring is left, whatever has become of it. -/
lemma triple_disperse : Triple (fun _ => True) (disperse sp rules)
    (fun _ st => IsChildless st.1) fun _ st => IsChildless st.1 := by
  have hmigrate : Triple (fun _ => True) (migrate sp rules) (fun _ st => IsChildless st.1)
      fun _ st => IsChildless st.1 := by
    refine Triple.bind (R := fun _ _ => True) (fun _ h => h) fun p => ?_
    refine Triple.bind (R := fun _ st => IsChildless st.1) (fun _ _ => ⟨rfl, rfl⟩) fun _ => ?_
    exact Keeps.bind (childless_offer p.son) fun _ => childless_offer p.daughter
  refine Triple.bind hmigrate fun _ => ?_
  split
  · exact Keeps.bind (childless_shuffle rules.direction) fun _ => .pure _
  · exact Keeps.pure _

end

/-! ### Steps -/

lemma step_eq (sp : Species ι) (rules : EvolutionSettings) (crossoverRate mutationRate : Float) :
    step sp rules crossoverRate mutationRate = beget sp rules crossoverRate mutationRate >>=
      fun _ => evaluateChildren sp >>= fun _ => disperse sp rules := by
  simp only [step, beget, disperse, Act.bind_assoc]

/-- For blind individuals all later steps come to what they come to from the population before, with
a source whose words have gone on to the same place. -/
def IsForgotten (sp : Species ι) (rules : EvolutionSettings) (p : Population ι) (s : Session)
    (st : Population ι × Session) : Prop :=
  sp.IsBlind → ∀ rates,
    stepsFrom sp rules st rates = stepsFrom sp rules (p, { s with source := st.2.source }) rates

lemma isForgotten_of_members (sp : Species ι) (rules : EvolutionSettings) {p q : Population ι}
    (hq : q.members = p.members) (s t : Session) : IsForgotten sp rules p s (q, t) := by
  intro hblind rates
  have hsame : SameMembers (q, t) (p, { s with source := t.source }) := ⟨hq, rfl⟩
  exact stepsFrom_eq hblind rules hsame rates

/-- **A failed step is undone.**  If offspring is made but the evaluation of one fails, the step
fails with the error of the first that does, the members are those before the step, without any
offspring, and the step is forgotten.  If the evaluation succeeds, no offspring is left however the
step ends.  And if no offspring is made, the members are still there and the step is forgotten, too;
where mutation and crossing fail for want of random words only, this is for want of them. -/
theorem failed_step_atomic (sp : Species ι) (rules : EvolutionSettings)
    (crossoverRate mutationRate : Float) {p : Population ι} (hp : 2 ≤ p.members.length)
    (s : Session) :
    let r := step sp rules crossoverRate mutationRate (p, s)
    match beget sp rules crossoverRate mutationRate (p, s) with
    | (.error e, q, t) => r = (.error e, q, t) ∧ q.members = p.members ∧
      IsForgotten sp rules p s r.2 ∧
      ∀ Good, sp.Breeds Good (· = .stalled) → (∀ x ∈ p.members, Good x) → e = .stalled
    | (.ok (), q, t) => ∃ son daughter,
      q = { p with son := some son, daughter := some daughter } ∧
      match evaluateChildren sp (q, t) with
      | (.error e, _, u) => r = (.error e, { p with son := none, daughter := none }, u) ∧
        IsForgotten sp rules p s r.2 ∧ FailsIn sp son daughter t e u
      | (.ok (), _) => r.2.1.son = none ∧ r.2.1.daughter = none := by
  intro r
  have hr : r = (beget sp rules crossoverRate mutationRate >>=
      fun _ => evaluateChildren sp >>= fun _ => disperse sp rules) (p, s) := by
    rw [← step_eq]
  have hbegets : Triple (fun st => st.1 = p) (beget sp rules crossoverRate mutationRate) _ _ :=
    triple_beget sp.breeds_any hp (fun _ _ => trivial) crossoverRate mutationRate
  rcases hbeget : beget sp rules crossoverRate mutationRate (p, s) with ⟨e | ⟨⟩, q, t⟩ <;>
    rw [Act.bind_apply, hbeget] at hr <;> dsimp only at hr ⊢
  · obtain ⟨-, hmembers⟩ := hbegets.error (s := (p, s)) rfl hbeget
    rw [hr]
    refine ⟨rfl, hmembers, isForgotten_of_members sp rules hmembers s t, fun Good hsp hgood => ?_⟩
    -- the triple above allows any error; where only words can be wanting it has that one
    exact ((triple_beget hsp hp hgood _ _).error (s := (p, s)) rfl hbeget).1
  · obtain ⟨son, daughter, -, -, rfl⟩ := hbegets.ok (s := (p, s)) rfl hbeget
    refine ⟨son, daughter, rfl, ?_⟩
    -- the members are not written to before this stage has succeeded
    have hevaluates := evaluateChildren_ends sp p son daughter t
    rw [Act.bind_apply] at hr
    rcases hevaluate : evaluateChildren sp
        ({ p with son := some son, daughter := some daughter }, t)
      with ⟨e | ⟨⟩, q, u⟩ <;> rw [hevaluate] at hevaluates hr <;> dsimp only at hr ⊢ <;> rw [hr]
    · obtain ⟨rfl, hfails⟩ := hevaluates
      have hmembers : members { p with son := none, daughter := none } = p.members := rfl
      exact ⟨rfl, isForgotten_of_members sp rules hmembers s u, hfails⟩
    · exact triple_disperse.state trivial

/-- An input, and a conjunction that lacks its operands: a copy of the second is evaluated behind a
copy of the first, and no trace of either is left.  From a source whose words are all passed over no
copies of numbers are made. -/
theorem failed_step_atomic_conjunction :
    let sp := Forest.species (.fuzzy ⟨#[0.5, 0.25], 1, 2, 1, none, rfl, by decide⟩ {})
    let rules : EvolutionSettings := { selection := .elitary }
    let rules' : EvolutionSettings := { selection := .roulette }
    let source : Source := ⟨fun n => n.toUInt64, 0, 4⟩
    let p : Population (Forest Float) :=
      ⟨[.ofCode 1 [.input 0 0.5, .separator], .ofCode 1 [.plain .and 0.5, .separator]], none, none⟩
    let p' : Population Probe := ⟨[.ofValue 0.0 false, .ofValue 0.0 false], none, none⟩
    let r := step sp rules 0.0 0.0 (p, { source })
    let r' := step Probe.species rules' 0.0 0.0 (p', { source := { source with patience := 0 } })
    2 ≤ p.members.length ∧
      (r.1 = .error (.execution (.stackUnderflow (.plain .and 0.5))) ∧ r.2.1 = p ∧
        ∀ rates, stepsFrom sp rules r.2 rates
          = stepsFrom sp rules (p, { source := r.2.2.source }) rates) ∧
      r'.1 = .error .stalled ∧ r'.2.1.members = p'.members ∧
        ∀ rates, stepsFrom Probe.species rules' r'.2 rates
          = stepsFrom Probe.species rules' (p', { source := r'.2.2.source }) rates := by
  intro sp rules rules' source p p' r r'
  have hp : 2 ≤ p.members.length := by decide
  refine ⟨hp, ?_, ?_⟩
  · have h := failed_step_atomic sp rules 0.0 0.0 hp { source }
    have hbeget : (beget sp rules 0.0 0.0 (p, { source })).1 = .ok () := by decide +kernel
    have hevaluate : (evaluateChildren sp (beget sp rules 0.0 0.0 (p, { source })).2).1
        = .error (.execution (.stackUnderflow (.plain .and 0.5))) := by decide +kernel
    rcases hrun : beget sp rules 0.0 0.0 (p, { source }) with ⟨outcome, q, t⟩
    rw [hrun] at hbeget hevaluate h
    obtain rfl : outcome = .ok () := hbeget
    obtain ⟨son, daughter, -, h⟩ := h
    rcases hrun' : evaluateChildren sp (q, t) with ⟨outcome, q', u⟩
    rw [hrun'] at hevaluate h
    obtain rfl : outcome = _ := hevaluate
    obtain ⟨hr, hforgotten, -⟩ := h
    have hr : r = _ := hr
    exact ⟨congrArg Prod.fst hr, congrArg (·.2.1) hr, hforgotten (Forest.isBlind_species _ _ _)⟩
  · have h := failed_step_atomic Probe.species rules' 0.0 0.0 (p := p') (by decide)
      { source := { source with patience := 0 } }
    have hbeget : (beget Probe.species rules' 0.0 0.0
      (p', { source := { source with patience := 0 } })).1.isOk = false := by decide +kernel
    rcases hrun : beget Probe.species rules' 0.0 0.0
      (p', { source := { source with patience := 0 } }) with ⟨e | ⟨⟩, q, t⟩ <;>
      rw [hrun] at hbeget h
    · obtain ⟨hr, hmembers, hforgotten, hstalled⟩ := h
      obtain rfl := hstalled _ Probe.breeds_species fun _ _ => trivial
      have hr : r' = _ := hr
      refine ⟨congrArg Prod.fst hr, ?_, hforgotten Probe.isBlind_species⟩
      rw [hr]
      exact hmembers
    · cases hbeget

end Breeding

end FuzzyForest
