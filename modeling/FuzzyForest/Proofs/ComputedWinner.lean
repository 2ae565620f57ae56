/-
Whether the winner of a population was evaluated.

Offspring is offered only once it is evaluated, but mixing up puts a half in that may have failed
on the way; individuals without a fitness are then ranked as if it were zero.  As long as no mixing
up fails like this, all members were evaluated.  Once one has failed, the winner keeps being an
individual whose fitness was computed if it is settled how the members are sorted and zero is not
better than the best fitness whenever mixing up fails.
-/
import FuzzyForest.Proofs.Lineage
import FuzzyForest.Proofs.Succession

namespace FuzzyForest

open Act (Triple)

variable {ι : Type}

/-! ### Fitness that is computed -/

/-- The fitness of an individual was computed or reads zero. -/
def Species.Reads (sp : Species ι) (Computed : ι → Prop) (x : ι) : Prop :=
  Computed x ∨ sp.fitness x = 0.0

/-- Evaluation computes the fitness, and nothing leaves an old fitness to a changed individual. -/
structure Species.Caches (sp : Species ι) (Computed : ι → Prop) : Prop where
  evaluate : ∀ {x y s t fitness}, sp.evaluate (x, s) = (.ok fitness, y, t) → Computed y
  fail : ∀ {x y s t e}, sp.evaluate (x, s) = (.error e, y, t) → sp.Reads Computed x →
    sp.Reads Computed y
  mutated : ∀ {p x y s t}, sp.mutated p x s = (.ok y, t) → sp.Reads Computed x →
    sp.Reads Computed y

namespace Species.Caches

variable {sp : Species ι} {Computed : ι → Prop}

/-- What was computed or reads zero stays so, whatever the schedule. -/
lemma reads_evaluated (h : sp.Caches Computed) {xs ys : List ι} {s t : Session}
    {outcome : Except Error Unit} (hall : sp.Evaluated xs s outcome ys t)
    (hxs : ∀ x ∈ xs, sp.Reads Computed x) : ∀ y ∈ ys, sp.Reads Computed y := by
  refine hall.forall_of_each hxs fun x u hx => ?_
  rcases hrun : sp.evaluate (x, u) with ⟨e | fitness, y, v⟩
  · exact h.fail hrun hx
  · exact .inl (h.evaluate hrun)

lemma mutatedAll (h : sp.Caches Computed) {rate : Float} {xs ys : List ι} {s t : Source}
    (hxs : ∀ x ∈ xs, sp.Reads Computed x) (hall : sp.mutatedAll rate xs s = (.ok ys, t)) :
    ∀ y ∈ ys, sp.Reads Computed y := by
  induction xs generalizing ys s with
  | nil =>
    cases hall
    exact nofun
  | cons x xs ih =>
    obtain ⟨hx, hxs⟩ := List.forall_mem_cons.mp hxs
    obtain ⟨y, u, hy, hall⟩ := Act.bind_eq_ok.mp hall
    obtain ⟨rest, v, hrest, hall⟩ := Act.bind_eq_ok.mp hall
    cases hall
    exact List.forall_mem_cons.mpr ⟨h.mutated hy hx, ih hxs hrest⟩

end Species.Caches

/-! ### The first member -/

namespace Population

/-- All members were computed or read zero, and the first one was computed: all were, or zero is
not better than the first one. -/
structure IsLed (sp : Species ι) (Computed : ι → Prop) (d : Direction) (xs : List ι) : Prop where
  size : 2 ≤ xs.length
  reads : ∀ x ∈ xs, sp.Reads Computed x
  first : (∀ x ∈ xs, Computed x) ∨
    ∀ x ∈ xs.head?, Computed x ∧ d.isBetter 0.0 (sp.fitness x) = false

namespace IsLed

variable {sp : Species ι} {Computed : ι → Prop} {d : Direction} {xs ys : List ι}

lemma of_computed (hsize : 2 ≤ xs.length) (h : ∀ x ∈ xs, Computed x) : IsLed sp Computed d xs :=
  ⟨hsize, fun x hx => .inl (h x hx), .inl h⟩

lemma exists_first (h : IsLed sp Computed d xs) : ∃ x, xs.head? = some x ∧ Computed x := by
  obtain ⟨x, rest, rfl⟩ := List.exists_cons_of_length_pos
    (show 0 < xs.length from Nat.lt_of_lt_of_le Nat.zero_lt_two h.size)
  refine ⟨x, rfl, ?_⟩
  rcases h.first with hall | hfirst
  · exact hall x List.mem_cons_self
  · exact (hfirst x rfl).1

/-- What is better than a first member that zero is not better than was computed, too. -/
lemma first_of_leads (hfirst : ∀ x ∈ xs.head?, Computed x ∧ d.isBetter 0.0 (sp.fitness x) = false)
    (hys : ∀ y ∈ ys, sp.Reads Computed y) (h : Ranking.Leads (better sp d) xs ys) :
    ∀ y ∈ ys.head?, Computed y ∧ d.isBetter 0.0 (sp.fitness y) = false := by
  rcases h with h | ⟨x, hx, y, hy, hbetter⟩
  · rwa [h]
  · obtain ⟨-, hzero⟩ := hfirst x hx
    intro y' hy'
    obtain rfl : y' = y := Option.mem_unique hy' hy
    refine ⟨(hys _ (List.mem_of_mem_head? hy)).resolve_right fun h => ?_, ?_⟩
    · rw [better, h, hzero] at hbetter
      cases hbetter
    · by_contra hnot
      rw [d.isBetter_trans (eq_true_of_ne_false hnot) hbetter] at hzero
      cases hzero

/-- Offering evaluated children keeps the first member evaluated. -/
lemma migrated {p q : Population ι} (h : IsLed sp Computed d p.members) (hpq : p.Migrated sp d q)
    (hson : ∀ x ∈ p.son, Computed x) (hdaughter : ∀ x ∈ p.daughter, Computed x) :
    IsLed sp Computed d q.members := by
  have hmem : ∀ y ∈ q.members, y ∈ p.members ∨ Computed y := fun y hy =>
    (hpq.mem hy).imp_right fun hy => hy.elim (hson y) (hdaughter y)
  have hreads : ∀ y ∈ q.members, sp.Reads Computed y := fun y hy =>
    (hmem y hy).elim (h.reads y) .inl
  refine ⟨hpq.length_eq ▸ h.size, hreads, ?_⟩
  rcases h.first with hall | hfirst
  · exact .inl fun y hy => (hmem y hy).elim (hall y) id
  · exact .inr (first_of_leads hfirst hreads hpq.leads)

/-- Where it is settled how the members are sorted, sorting a half in that was evaluated, or that
was not where zero is not better than the first member, keeps the first member evaluated. -/
lemma refreshed {p : Population ι} (h : IsLed sp Computed d p.members) {fresh : List ι}
    (hlength : (p.refreshed fresh).members.length = p.members.length)
    (hreads : ∀ x ∈ fresh, sp.Reads Computed x)
    (hfresh : (∀ x ∈ fresh, Computed x) ∨
      ∀ x ∈ p.members.head?, d.isBetter 0.0 (sp.fitness x) = false)
    (hsortable : (ranked sp d (p.refreshed fresh)).IsSortable sp) :
    IsLed sp Computed d (ranked sp d (p.refreshed fresh)).members := by
  have hperm := members_ranked_perm sp d (p.refreshed fresh)
  have hmem : ∀ {y}, y ∈ (ranked sp d (p.refreshed fresh)).members → y ∈ p.members ∨ y ∈ fresh :=
    fun hy => mem_refreshed (hperm.mem_iff.mp hy)
  have hreads' : ∀ y ∈ (ranked sp d (p.refreshed fresh)).members, sp.Reads Computed y :=
    fun y hy => (hmem hy).elim (h.reads y) (hreads y)
  have hleads := Breeding.leads_ranked_refreshed h.size hsortable
  refine ⟨(hperm.length_eq.trans hlength).symm ▸ h.size, hreads', ?_⟩
  rcases hfresh with hfresh | hzero
  · exact h.first.imp (fun hall y hy => (hmem hy).elim (hall y) (hfresh y))
      fun hfirst => first_of_leads hfirst hreads' hleads
  · obtain ⟨x, hx, hcomputed⟩ := h.exists_first
    refine .inr (first_of_leads (fun x' hx' => ⟨?_, hzero x' hx'⟩) hreads' hleads)
    rwa [← Option.mem_unique hx hx']

end IsLed

end Population

/-! ### Steps -/

namespace Breeding

open Population

variable {sp : Species ι} {Computed : ι → Prop} {rules : EvolutionSettings}
  {crossoverRate mutationRate : Float} {st mid : Population ι × Session}

/-- Mixing up fails in an evaluation. -/
def MixesInVain (sp : Species ι) (rules : EvolutionSettings) (crossoverRate mutationRate : Float)
    (st : Population ι × Session) : Prop :=
  rules.shuffle = true ∧ ∃ mid e,
    step sp (unshuffled rules) crossoverRate mutationRate st = (.ok (), mid) ∧
    (shuffle sp rules.direction mid).1 = .error e ∧ e.isEvaluationFailure = true

/-- Mixing up fails in an evaluation where zero is better than the best fitness. -/
def Exposed (sp : Species ι) (rules : EvolutionSettings) (crossoverRate mutationRate : Float)
    (st : Population ι × Session) : Prop :=
  MixesInVain sp rules crossoverRate mutationRate st ∧ rules.direction.isBetter 0.0
    ((step sp (unshuffled rules) crossoverRate mutationRate st).2.1.bestFitness sp) = true

/-- Mixing up does not fail in an evaluation. -/
def Calm (sp : Species ι) (rules : EvolutionSettings) (crossoverRate mutationRate : Float)
    (st : Population ι × Session) : Prop :=
  ¬MixesInVain sp rules crossoverRate mutationRate st

/-- If mixing up fails in an evaluation, zero is not better than the best fitness; and it is settled
how the members are sorted. -/
def Covered (sp : Species ι) (rules : EvolutionSettings) (crossoverRate mutationRate : Float)
    (st : Population ι × Session) : Prop :=
  ¬Exposed sp rules crossoverRate mutationRate st ∧
    (step sp rules crossoverRate mutationRate st).2.1.IsSortable sp

/-- Success, or the failure of an evaluation. -/
def isTolerated : Except Error Unit → Bool
  | .ok () => true
  | .error e => e.isEvaluationFailure

/-- The offspring of a step is evaluated. -/
lemma computed_of_conceive (hcaches : sp.Caches Computed)
    (h : conceive sp rules crossoverRate mutationRate st = (.ok (), mid)) :
    (∀ x ∈ mid.1.son, Computed x) ∧ ∀ x ∈ mid.1.daughter, Computed x := by
  have hchild : ∀ child : Option ι, Triple (fun _ => True) (evaluatedChild sp child)
      (fun child _ => ∀ x ∈ child, Computed x) fun _ _ => True := by
    intro child
    cases child with
    | none => exact Triple.pure fun _ _ => nofun
    | some child =>
      intro s _
      rcases hevaluate : sp.evaluate (child, s) with ⟨e | fitness, y, t⟩ <;>
        simp only [evaluatedChild, hevaluate]
      rintro x ⟨⟩
      exact hcaches.evaluate hevaluate
  have hchildren : Triple (fun _ => True) (evaluateChildren sp)
      (fun _ st => (∀ x ∈ st.1.son, Computed x) ∧ ∀ x ∈ st.1.daughter, Computed x)
      fun _ _ => True := by
    intro st _
    refine triple_population_bind (I := fun _ => True) (fun p _ => ?_) st trivial
    refine Triple.bind (R := fun _ _ => True) (triple_modify fun _ _ _ => trivial) fun _ => ?_
    refine Triple.bind (R := fun son _ => ∀ x ∈ son, Computed x) (triple_aside fun _ =>
      (hchild p.son).mono (fun _ _ => trivial) (fun _ _ h => h) fun _ _ h => h) fun son => ?_
    refine Triple.bind (R := fun daughter _ => (∀ x ∈ son, Computed x) ∧
      ∀ x ∈ daughter, Computed x) (triple_aside fun _ s hson => ?_) fun daughter =>
      triple_modify fun _ _ h => h
    have hdaughter := hchild p.daughter s trivial
    rcases hrun : evaluatedChild sp p.daughter s with ⟨e | child, t⟩ <;> rw [hrun] at hdaughter
    · trivial
    · exact ⟨hson, hdaughter⟩
  obtain ⟨_, _, -, h⟩ := Act.bind_eq_ok.mp h
  obtain ⟨_, _, -, h⟩ := Act.bind_eq_ok.mp h
  obtain ⟨_, _, -, h⟩ := Act.bind_eq_ok.mp h
  exact hchildren.ok trivial h

/-- What is left by a step that succeeds or fails in an evaluation: what it has bred, or the better
half of that together with other individuals, whose evaluation succeeds unless mixing up is in
vain. -/
lemma tolerated_cases
    (htolerated : isTolerated (step sp rules crossoverRate mutationRate st).1 = true) :
    (step sp rules crossoverRate mutationRate st).2.1
      = (step sp (unshuffled rules) crossoverRate mutationRate st).2.1 ∨
    ∃ mid drawn outcome fresh s t,
      step sp (unshuffled rules) crossoverRate mutationRate st = (.ok (), mid) ∧
      mutants sp mid = (.ok drawn, mid.1, s) ∧ sp.Evaluated drawn s outcome fresh t ∧
      (step sp rules crossoverRate mutationRate st).2.1
        = ranked sp rules.direction (mid.1.refreshed fresh) ∧
      (outcome = .ok () ∨ MixesInVain sp rules crossoverRate mutationRate st) := by
  by_cases hshuffle : rules.shuffle = true
  · rcases hrun : step sp (unshuffled rules) crossoverRate mutationRate st with ⟨e | ⟨⟩, mid⟩
    · exact .inl (by rw [step_of_error hrun])
    · rw [step_of_ok hshuffle hrun] at htolerated ⊢
      have hshuffled := shuffled_shuffle sp rules.direction mid
      rcases hmix : shuffle sp rules.direction mid with ⟨r, q, u⟩
      rw [hmix] at hshuffled htolerated
      cases hshuffled with
      | idle => exact .inl rfl
      | undrawn => exact .inl rfl
      | @mixed drawn fresh outcome s t hdrawn hfresh =>
        refine .inr ⟨mid, drawn, outcome, fresh, s, u, rfl, hdrawn, hfresh, rfl, ?_⟩
        cases hsort : checkSort sp rules.direction (mid.1.refreshed fresh) with
        | error e =>
          -- a sort that breaks off is not tolerated
          obtain ⟨rfl, -⟩ := eq_unsortable_of_checkSort hsort
          rw [hsort] at htolerated
          cases htolerated
        | ok =>
          rw [hsort] at hmix htolerated
          cases outcome with
          | ok => exact .inl rfl
          | error e => exact .inr ⟨hshuffle, mid, e, hrun, by rw [hmix]; rfl, htolerated⟩
  · exact .inl (by rw [step_eq_unshuffled sp (eq_false_of_ne_true hshuffle)])

/-- **A calm step breeds evaluated members of evaluated ones.** -/
theorem computed_step (hcaches : sp.Caches Computed) (hst : ∀ x ∈ st.1.members, Computed x)
    (htolerated : isTolerated (step sp rules crossoverRate mutationRate st).1 = true)
    (hcalm : Calm sp rules crossoverRate mutationRate st) :
    ∀ x ∈ (step sp rules crossoverRate mutationRate st).2.1.members, Computed x := by
  have hbred : ∀ x ∈ (step sp (unshuffled rules) crossoverRate mutationRate st).2.1.members,
      Computed x := by
    rcases step_cases sp rules crossoverRate mutationRate st with
      h | ⟨conceived, hconceived, hmembers, hmigrated⟩
    · rwa [h]
    · obtain ⟨hson, hdaughter⟩ := computed_of_conceive hcaches hconceived
      exact fun x hx => (hmigrated.mem hx).elim (fun hx => hst x (hmembers ▸ hx))
        fun hx => hx.elim (hson x) (hdaughter x)
  rcases tolerated_cases htolerated with
    h | ⟨mid, drawn, outcome, fresh, s, t, hrun, -, hfresh, h, houtcome⟩
  · rwa [h]
  · rw [hrun] at hbred
    obtain rfl := houtcome.resolve_right hcalm
    rw [h]
    intro x hx
    exact (mem_refreshed ((members_ranked_perm sp _ _).mem_iff.mp hx)).elim (hbred x)
      (hfresh.forall_of_ok hcaches.evaluate x)

/-- **A covered step keeps the first member evaluated.** -/
theorem isLed_step (hcaches : sp.Caches Computed)
    (hst : IsLed sp Computed rules.direction st.1.members)
    (htolerated : isTolerated (step sp rules crossoverRate mutationRate st).1 = true)
    (hcovered : Covered sp rules crossoverRate mutationRate st) :
    IsLed sp Computed rules.direction
      (step sp rules crossoverRate mutationRate st).2.1.members := by
  have hbred : IsLed sp Computed rules.direction
      (step sp (unshuffled rules) crossoverRate mutationRate st).2.1.members := by
    rcases step_cases sp rules crossoverRate mutationRate st with
      h | ⟨conceived, hconceived, hmembers, hmigrated⟩
    · rwa [h]
    · obtain ⟨hson, hdaughter⟩ := computed_of_conceive hcaches hconceived
      exact IsLed.migrated (hmembers ▸ hst) hmigrated hson hdaughter
  obtain ⟨hexposed, hsortable⟩ := hcovered
  rcases tolerated_cases htolerated with
    h | ⟨mid, drawn, outcome, fresh, s, t, hrun, hdrawn, hfresh, h, houtcome⟩
  · rwa [h]
  · rw [Exposed, hrun] at hexposed
    rw [hrun] at hbred
    rw [h] at hsortable ⊢
    obtain ⟨-, _, _, hmutated⟩ := mutants_eq hdrawn
    have hworse : ∀ x ∈ mid.1.members.drop (mid.1.size / 2), sp.Reads Computed x := fun x hx =>
      hbred.reads x (List.mem_of_mem_drop hx)
    refine hbred.refreshed (length_refreshed hdrawn hfresh)
      (hcaches.reads_evaluated hfresh (hcaches.mutatedAll hworse hmutated)) ?_ hsortable
    rcases houtcome with rfl | hvain
    · exact .inl (hfresh.forall_of_ok hcaches.evaluate)
    · -- a step that is not exposed mixes up in vain only where zero is not better
      refine .inr fun x hx => ?_
      by_contra hzero
      refine hexposed ⟨hvain, ?_⟩
      rw [bestFitness, show mid.1.members.head? = some x from hx]
      exact eq_true_of_ne_false hzero

/-- A sequence of steps, each with a source of its own, that succeed or fail in an evaluation and
of which a condition holds. -/
inductive Continues (sp : Species ι) (rules : EvolutionSettings)
    (guard : Float → Float → Population ι × Session → Prop) (start : Population ι × Session) :
    Population ι × Session → Prop
  | start : Continues sp rules guard start start
  | step {st : Population ι × Session} (crossoverRate mutationRate : Float) (source : Source)
    (h : Continues sp rules guard start st)
    (htolerated : isTolerated
      (step sp rules crossoverRate mutationRate (st.1, { st.2 with source })).1 = true)
    (hguard : guard crossoverRate mutationRate (st.1, { st.2 with source })) :
    Continues sp rules guard start
      (Breeding.step sp rules crossoverRate mutationRate (st.1, { st.2 with source })).2

lemma Continues.computed (hcaches : sp.Caches Computed)
    (h : Continues sp rules (Calm sp rules) st mid) (hst : ∀ x ∈ st.1.members, Computed x) :
    mid.1.members.length = st.1.members.length ∧ ∀ x ∈ mid.1.members, Computed x := by
  induction h with
  | start => exact ⟨rfl, hst⟩
  | step crossoverRate mutationRate source _ htolerated hcalm ih =>
    exact ⟨(length_step sp rules crossoverRate mutationRate _).trans ih.1,
      computed_step hcaches ih.2 htolerated hcalm⟩

lemma Continues.isLed (hcaches : sp.Caches Computed)
    (h : Continues sp rules (Covered sp rules) st mid)
    (hst : IsLed sp Computed rules.direction st.1.members) :
    IsLed sp Computed rules.direction mid.1.members := by
  induction h with
  | start => exact hst
  | step crossoverRate mutationRate source _ htolerated hcovered ih =>
    exact isLed_step hcaches ih htolerated hcovered

/-- After an exposed step the population holds an individual that was not evaluated, and zero is
better than what was the best fitness. -/
lemma Exposed.exists_failed (Failed : ι → Prop)
    (hfail : ∀ {x y s t e}, sp.evaluate (x, s) = (.error e, y, t) → Failed y)
    (hmutated : ∀ p x, Act.Returns (sp.mutated p x) fun _ => True)
    (h : Exposed sp rules crossoverRate mutationRate st) :
    (∃ x ∈ (step sp rules crossoverRate mutationRate st).2.1.members, Failed x) ∧
      rules.direction.isBetter 0.0 ((step sp (unshuffled rules) crossoverRate mutationRate
        st).2.1.bestFitness sp) = true := by
  obtain ⟨⟨hshuffle, mid, e, hmid, herror, hfailure⟩, hzero⟩ := h
  refine ⟨?_, hzero⟩
  rw [step_of_ok hshuffle hmid]
  have hshuffled := shuffled_shuffle sp rules.direction mid
  rcases hmix : shuffle sp rules.direction mid with ⟨r, q, u⟩
  rw [hmix] at hshuffled herror
  cases hshuffled with
  | idle => cases herror
  | undrawn hdrawn =>
    -- a draw fails for want of random words only, which is no failed evaluation
    cases herror
    obtain ⟨-, _, _, hdraw⟩ := mutants_eq hdrawn
    have hmutants : Act.Returns (sp.mutatedAll 1.0 (mid.1.members.drop (mid.1.size / 2))) _ :=
      Species.returns_mutatedAll (fun x _ => hmutated 1.0 x) fun _ _ => trivial
    obtain rfl : e = .stalled := hmutants.error trivial hdraw
    cases hfailure
  | @mixed drawn fresh outcome s t hdrawn hfresh =>
    cases hsort : checkSort sp rules.direction (mid.1.refreshed fresh) with
    | error e' =>
      -- nor is a sort that breaks off
      rw [hsort] at herror
      cases herror
      obtain ⟨rfl, -⟩ := eq_unsortable_of_checkSort hsort
      cases hfailure
    | ok =>
      rw [hsort] at herror
      cases outcome with
      | ok => cases herror
      | error e' =>
        obtain ⟨_, -, y, hy, _, _, hfailed⟩ := hfresh.error e' rfl
        exact ⟨y, (members_ranked_perm sp _ _).mem_iff.mpr (List.mem_append_right _ hy),
          hfail hfailed⟩

/-- In a closed species no evaluation fails. -/
lemma calm_of_isClosed {Good : ι → Prop} {n : Nat} (hclosed : sp.IsClosed Good) (hn : 2 ≤ n)
    (hst : st.1.Consists Good n) : Calm sp rules crossoverRate mutationRate st := by
  rintro ⟨-, mid, e, hmid, hshuffle, hfailure⟩
  obtain ⟨-, hconsists, -⟩ := (yields_step hclosed (unshuffled rules) hn crossoverRate mutationRate
    st.2.journal.discards).ok ⟨hst, rfl⟩ hmid
  have hrun : shuffle sp rules.direction mid = (.error e, (shuffle sp rules.direction mid).2) := by
    rw [← hshuffle]
  obtain ⟨hbreakdown, -⟩ := (yields_shuffle hclosed rules.direction mid.2.journal.discards).error
    ⟨hconsists, rfl⟩ hrun
  rw [hbreakdown.isEvaluationFailure] at hfailure
  cases hfailure

end Breeding

/-! ### Runs -/

namespace Evolution

open Population

variable {plan : Plan ι} {Computed : ι → Prop}

/-- A condition holds of every step that a run takes. -/
def Throughout (plan : Plan ι) (guard : Float → Float → Population ι × Session → Prop)
    (clock : Nat → Float) : (left : Nat) → Stage ι → Trail ι → Prop
  | 0, _, _ => True
  | left + 1, st, trail => stop? plan st (clock st.generation) = none →
      guard plan.rules.crossoverRate plan.rules.mutationRate (st.population, trail.2) ∧
      ∀ st' trail', bred plan st trail = (.ok st', trail') →
        Throughout plan guard clock left st' trail'

/-- All steps that a run takes are calm, up to one from which on all are covered. -/
def Guarded (plan : Plan ι) (clock : Nat → Float) : (left : Nat) → Stage ι → Trail ι → Prop
  | 0, _, _ => True
  | left + 1, st, trail =>
    Throughout plan (Breeding.Covered plan.species plan.rules) clock (left + 1) st trail ∨
      (stop? plan st (clock st.generation) = none →
        Breeding.Calm plan.species plan.rules plan.rules.crossoverRate plan.rules.mutationRate
          (st.population, trail.2) ∧
        ∀ st' trail', bred plan st trail = (.ok st', trail') → Guarded plan clock left st' trail')

lemma quietly_eq_ok {α : Type} {m : Run α} {a : α} {trail trail' : Trail ι}
    (h : quietly m trail = (.ok a, trail')) : ∃ t, m trail.2 = (.ok a, t) := by
  rw [quietly, Act.within] at h
  rcases hm : m trail.2 with ⟨r, t⟩
  rw [hm] at h
  exact ⟨t, by rw [(Prod.mk.inj h).1]⟩

/-- A run begins with the members that are drawn and evaluated, sorted. -/
lemma begun_cases {st : Stage ι} {trail trail' : Trail ι}
    (h : begun plan trail = (.ok st, trail')) : ∃ drawn founders s t u,
      Run.draw (newborns plan.newborn plan.rules.populationSize) s = (.ok drawn, t) ∧
      plan.species.Evaluated drawn t (.ok ()) founders u ∧ 2 ≤ founders.length ∧
      st.population = ranked plan.species plan.rules.direction ⟨founders, none, none⟩ := by
  obtain ⟨_, trail, -, h⟩ := Act.bind_eq_ok.mp h
  obtain ⟨population, _, hpopulation, h⟩ := Act.bind_eq_ok.mp h
  obtain ⟨_, _, -, h⟩ := Act.bind_eq_ok.mp h
  cases h
  obtain ⟨t, hfirst⟩ := quietly_eq_ok hpopulation
  have hfounded := founded_firstPopulation plan trail.2
  rw [hfirst] at hfounded
  generalize hr : (Except.ok population, t) = r at hfounded
  cases hfounded with
  | undrawn => cases hr
  | @evaluated drawn founders outcome s u hdrawn hfounders =>
    cases outcome with
    | error e => cases hr
    | ok =>
      obtain ⟨htwo, -, hranked⟩ := ofMembers_eq_ok_iff.mp (Prod.mk.inj hr).1.symm
      exact ⟨drawn, founders, _, s, u, hdrawn, hfounders, htwo, hranked.symm⟩

/-- All members are evaluated in the beginning. -/
lemma computed_begun (hcaches : plan.species.Caches Computed) {st : Stage ι}
    {trail trail' : Trail ι} (h : begun plan trail = (.ok st, trail')) :
    2 ≤ st.population.members.length ∧ ∀ x ∈ st.population.members, Computed x := by
  obtain ⟨_, founders, _, _, _, -, hfounders, htwo, hpopulation⟩ := begun_cases h
  have hperm := members_ranked_perm plan.species plan.rules.direction ⟨founders, none, none⟩
  rw [hpopulation]
  exact ⟨hperm.length_eq.symm ▸ htwo,
    fun x hx => hfounders.forall_of_ok hcaches.evaluate x (hperm.mem_iff.mp hx)⟩

/-- The population of the next stage comes from a step. -/
lemma stepped_of_bred {st st' : Stage ι} {trail trail' : Trail ι}
    (h : bred plan st trail = (.ok st', trail')) :
    ∃ t, stepped plan (st.generation + 1) st.population trail.2 = (.ok st'.population, t) := by
  obtain ⟨population, _, hpopulation, h⟩ := Act.bind_eq_ok.mp h
  obtain ⟨best, _, -, h⟩ := Act.bind_eq_ok.mp h
  dsimp only at h
  split at h
  · obtain ⟨_, _, -, h⟩ := Act.bind_eq_ok.mp h
    cases h
    exact quietly_eq_ok hpopulation
  · cases h
    exact quietly_eq_ok hpopulation

/-- A run with generations left stops, or breeds one and goes on from there. -/
lemma bredOn_cases {clock : Nat → Float} {left : Nat} {st st' : Stage ι} {reason : StopReason}
    {trail trail' : Trail ι}
    (h : bredOn plan clock (left + 1) st trail = (.ok (st', reason), trail')) :
    st' = st ∨ stop? plan st (clock st.generation) = none ∧ ∃ mid u t,
      bred plan st trail = (.ok mid, u) ∧
      stepped plan (st.generation + 1) st.population trail.2 = (.ok mid.population, t) ∧
      bredOn plan clock left mid u = (.ok (st', reason), trail') := by
  rw [bredOn] at h
  cases hstop : stop? plan st (clock st.generation) with
  | some reason =>
    rw [hstop] at h
    cases h
    exact .inl rfl
  | none =>
    rw [hstop] at h
    dsimp only at h
    rcases hbred : bred plan st trail with ⟨e | mid, u⟩ <;> rw [hbred] at h
    · cases h
    · obtain ⟨t, hstepped⟩ := stepped_of_bred hbred
      exact .inr ⟨rfl, mid, u, t, rfl, hstepped, h⟩

section

variable {I : Population ι → Prop} {guard : Float → Float → Population ι × Session → Prop}
  (hstep : ∀ crossoverRate mutationRate st, I st.1 → guard crossoverRate mutationRate st →
    Breeding.isTolerated
      (Breeding.step plan.species plan.rules crossoverRate mutationRate st).1 = true →
    I (Breeding.step plan.species plan.rules crossoverRate mutationRate st).2.1)

include hstep

/-- What steps under a condition keep of a population a generation keeps. -/
lemma stepped_keeps {generation : Nat} {p q : Population ι} {s t : Session}
    (h : stepped plan generation p s = (.ok q, t)) (hp : I p)
    (hguard : guard plan.rules.crossoverRate plan.rules.mutationRate (p, s)) : I q := by
  have hnext := hstep _ _ (p, s) hp hguard
  rw [stepped] at h
  rcases hrun : Breeding.step plan.species plan.rules plan.rules.crossoverRate
    plan.rules.mutationRate (p, s) with ⟨e | ⟨⟩, p', s'⟩ <;> simp only [hrun] at h hnext
  · split at h
    · cases h
      exact hnext ‹_›
    · cases h
  · cases h
    exact hnext rfl

/-- What steps under a condition keep of a population a run keeps in which it holds throughout. -/
lemma bredOn_keeps {clock : Nat → Float} {left : Nat} {st st' : Stage ι} {reason : StopReason}
    {trail trail' : Trail ι} (h : bredOn plan clock left st trail = (.ok (st', reason), trail'))
    (hguard : Throughout plan guard clock left st trail) (hst : I st.population) :
    I st'.population := by
  induction left generalizing st trail with
  | zero =>
    cases h
    exact hst
  | succ left ih =>
    rcases bredOn_cases h with rfl | ⟨hrunning, mid, u, t, hbred, hstepped, hrest⟩
    · exact hst
    · obtain ⟨hnow, hlater⟩ := hguard hrunning
      exact ih hrest (hlater mid u hbred) (stepped_keeps hstep hstepped hst hnow)

end

/-- A guarded run keeps the first member evaluated. -/
lemma isLed_bredOn (hcaches : plan.species.Caches Computed) {clock : Nat → Float} {left : Nat}
    {st st' : Stage ι} {reason : StopReason} {trail trail' : Trail ι}
    (h : bredOn plan clock left st trail = (.ok (st', reason), trail'))
    (hguard : Guarded plan clock left st trail) (hsize : 2 ≤ st.population.members.length)
    (hst : ∀ x ∈ st.population.members, Computed x) :
    IsLed plan.species Computed plan.rules.direction st'.population.members := by
  induction left generalizing st trail with
  | zero =>
    cases h
    exact .of_computed hsize hst
  | succ left ih =>
    rcases hguard with hcovered | hcalm
    · exact bredOn_keeps
        (I := fun p => IsLed plan.species Computed plan.rules.direction p.members)
        (fun _ _ _ hst hcovered htolerated =>
          Breeding.isLed_step hcaches hst htolerated hcovered) h hcovered
        (.of_computed hsize hst)
    · rcases bredOn_cases h with rfl | ⟨hrunning, mid, u, t, hbred, hstepped, hrest⟩
      · exact .of_computed hsize hst
      · obtain ⟨hnow, hlater⟩ := hcalm hrunning
        obtain ⟨hmid, hcomputed⟩ := stepped_keeps
          (I := fun p => 2 ≤ p.members.length ∧ ∀ x ∈ p.members, Computed x)
          (fun crossoverRate mutationRate st hst hcalm htolerated =>
            ⟨(Breeding.length_step _ _ crossoverRate mutationRate st).symm ▸ hst.1,
              Breeding.computed_step hcaches hst.2 htolerated hcalm⟩) hstepped ⟨hsize, hst⟩ hnow
        exact ih hrest (hlater mid u hbred) hmid hcomputed

/-- **The winner of a guarded run was evaluated.** -/
theorem computed_run (hcaches : plan.species.Caches Computed) {clock : Nat → Float}
    {trail trail' : Trail ι} {outcome : Outcome ι}
    (h : run plan clock trail = (.ok outcome, trail'))
    (hguard : ∀ st u, begun plan trail = (.ok st, u) →
      Guarded plan clock plan.rules.generations st u) : Computed outcome.winner := by
  obtain ⟨st, u, hbegun, h⟩ := Act.bind_eq_ok.mp h
  obtain ⟨⟨last, reason⟩, v, hbredOn, h⟩ := Act.bind_eq_ok.mp h
  obtain ⟨hsize, hcomputed⟩ := computed_begun hcaches hbegun
  have hled : IsLed plan.species Computed plan.rules.direction last.population.members :=
    isLed_bredOn hcaches hbredOn (hguard st u hbegun) hsize hcomputed
  obtain ⟨winner, hwinner, hcomputed⟩ := hled.exists_first
  dsimp only at h
  rw [finished, winner?, hwinner] at h
  obtain ⟨_, _, -, h⟩ := Act.bind_eq_ok.mp h
  cases h
  exact hcomputed

/-- A run of a closed species begins in it. -/
lemma consists_begun {Good : ι → Prop} (hclosed : plan.species.IsClosed Good)
    (hnewborn : Act.Returns plan.newborn Good) {st : Stage ι} {trail trail' : Trail ι}
    (h : begun plan trail = (.ok st, trail')) :
    ∃ n, 2 ≤ n ∧ st.population.Consists Good n := by
  obtain ⟨drawn, founders, s, t, _, hdrawn, hfounders, htwo, hpopulation⟩ := begun_cases h
  obtain ⟨⟨-, hgood⟩, -⟩ := (Run.Yields.draw (returns_newborns hnewborn
    plan.rules.populationSize) s.journal.discards).ok rfl hdrawn
  obtain ⟨-, hys, -⟩ := hclosed.evaluated hgood hfounders
  exact ⟨_, htwo, hpopulation ▸ (Consists.ofMembers rfl hys).ranked _ _⟩

/-- A run of a closed species is calm to its end. -/
lemma guarded_of_isClosed {Good : ι → Prop} {n : Nat} (hclosed : plan.species.IsClosed Good)
    (hn : 2 ≤ n) (clock : Nat → Float) (left : Nat) {st : Stage ι}
    (hst : st.population.Consists Good n) (trail : Trail ι) :
    Guarded plan clock left st trail := by
  induction left generalizing st trail with
  | zero => trivial
  | succ left ih =>
    refine .inr fun _ => ⟨Breeding.calm_of_isClosed hclosed hn hst, fun st' trail' hbred => ?_⟩
    have hnext : Yields plan n trail.2.journal (bred plan st) _ := yields_bred hclosed hn hst
    exact ih (hnext.ok (accounted_self plan trail) hbred).1 trail'

end Evolution

/-! ### Forests -/

namespace Forest

variable {ctx : Context Float} {f g : Forest Float} {s t : Session} {fitness : Float}

/-- The cached fitness was computed for the instructions of the forest. -/
def IsCached (ctx : Context Float) (f : Forest Float) : Prop := ∃ g s fitness t,
  g.code = f.code ∧ f.fitness? = some fitness ∧ computeFitness ctx (g, s) = (.ok fitness, f, t)

lemma IsCached.isEvaluated (h : f.IsCached ctx) : f.isEvaluated = true := by
  obtain ⟨_, _, fitness, _, -, hfitness, -⟩ := h
  rw [Forest.isEvaluated, hfitness, Option.isSome_some]

/-- Running the trees changes neither the instructions nor the cached fitness. -/
lemma evaluate_forest (ctx : Context Float) (f : Forest Float) (count : Nat) :
    (f.evaluate ctx count).forest.code = f.code ∧
      (f.evaluate ctx count).forest.fitness? = f.fitness? := by
  rw [evaluate]
  dsimp only
  split
  · exact ⟨rfl, rfl⟩
  · split <;> exact ⟨rfl, rfl⟩

/-- A forest that cannot be evaluated has no fitness. -/
lemma fitness?_of_error {e : Error} (h : computeFitness ctx (g, s) = (.error e, f, t)) :
    f.fitness? = none := by
  have hfitness := (evaluate_forest ctx { g with fitness? := none } s.executed).2
  cases hfailure : (evaluate ctx { g with fitness? := none } s.executed).failure? <;>
    simp only [computeFitness, refresh, hfailure] at h <;> cases h
  exact hfitness

/-- Forests cache the fitness that was computed last, and a failing evaluation drops it. -/
lemma caches (ctx : Context Float) (sorting : Sorting (Forest Float)) :
    (species ctx sorting).Caches (IsCached ctx) where
  evaluate {g f s t fitness} h := by
    have hcode := (evaluate_forest ctx { g with fitness? := none } s.executed).1
    have hcompute : computeFitness ctx (g, s) = (.ok fitness, f, t) := h
    cases hfailure : (evaluate ctx { g with fitness? := none } s.executed).failure? with
    | some cause =>
      simp only [computeFitness, refresh, hfailure] at hcompute
      cases hcompute
    | none =>
      refine ⟨g, s, fitness, t, ?_, ?_, hcompute⟩ <;>
        simp only [computeFitness, refresh, hfailure] at hcompute <;> cases hcompute
      · exact hcode.symm
      · rfl
  fail {g f s t e} h _ := by
    refine .inr ?_
    show Forest.fitness _ = _
    rw [Forest.fitness, fitness?_of_error h]
    rfl
  mutated {p f g s t} h _ := by
    obtain ⟨code, _, -, h⟩ := Act.bind_eq_ok.mp (show mutated ctx p f s = (.ok g, t) from h)
    cases h
    exact .inr rfl

end Forest

namespace Evolution

open Breeding Population

/-- The winner of a guarded run of forests was evaluated. -/
lemma isCached_winner {ctx : Context Float} {rules : EvolutionSettings}
    {notes : Event (Forest Float) → List Note} {sorting : Sorting (Forest Float)}
    {clock : Nat → Float} {trail trail' : Trail (Forest Float)} {outcome : Outcome (Forest Float)}
    (h : run (Plan.forests ctx rules notes sorting) clock trail = (.ok outcome, trail'))
    (hguard : ∀ st u, begun (Plan.forests ctx rules notes sorting) trail = (.ok st, u) →
      Guarded (Plan.forests ctx rules notes sorting) clock rules.generations st u) :
    outcome.winner.isEvaluated = true ∧ outcome.winner.IsCached ctx := by
  have hcached : outcome.winner.IsCached ctx := computed_run (Forest.caches ctx sorting) h hguard
  exact ⟨hcached.isEvaluated, hcached⟩

/-- **The winner was evaluated, as long as mixing up does not fail where zero is better than the
best fitness.**  This holds along any steps of any species that caches its fitness, and for the
outcome of a run; once some mixing up has failed, it has to be settled how the members are sorted.
Forests of fuzzy rules can always be evaluated.  Where mixing up does fail like this, a forest that
was not evaluated counts as better than the best one before. -/
theorem winner_computed (rules : EvolutionSettings) :
    (∀ {ι : Type} {sp : Species ι} {Computed : ι → Prop} {p q : Population ι} {s t : Session}
      {mid : Population ι × Session}, sp.Caches Computed → 2 ≤ p.members.length →
      (∀ x ∈ p.members, Computed x) → Continues sp rules (Calm sp rules) (p, s) mid →
      Continues sp rules (Covered sp rules) mid (q, t) →
      ∃ winner, q.winner? = some winner ∧ Computed winner) ∧
    (∀ (ctx : Context Float) (notes : Event (Forest Float) → List Note)
      (sorting : Sorting (Forest Float)) (clock : Nat → Float)
      (trail trail' : Trail (Forest Float)) (outcome : Outcome (Forest Float)),
      let plan := Plan.forests ctx rules notes sorting
      run plan clock trail = (.ok outcome, trail') →
      (∀ st u, begun plan trail = (.ok st, u) → Guarded plan clock rules.generations st u) →
      outcome.winner.isEvaluated = true ∧ outcome.winner.IsCached ctx) ∧
    (∀ (ds : Dataset Float) (settings : ModelSettings)
      (notes : Event (Forest Float) → List Note) (sorting : Sorting (Forest Float))
      (clock : Nat → Float) (trail trail' : Trail (Forest Float))
      (outcome : Outcome (Forest Float)), 0 < ds.targets →
      run (Plan.forests (.fuzzy ds settings) rules notes sorting) clock trail
        = (.ok outcome, trail') →
      outcome.winner.isEvaluated = true ∧ outcome.winner.IsCached (.fuzzy ds settings)) ∧
    ∀ (ctx : Context Float) (sorting : Sorting (Forest Float)) (crossoverRate mutationRate : Float)
      (st : Population (Forest Float) × Session),
      let sp := Forest.species ctx sorting
      Exposed sp rules crossoverRate mutationRate st →
      ∃ f ∈ (step sp rules crossoverRate mutationRate st).2.1.members,
        f.isEvaluated = false ∧ rules.direction.isBetter f.fitness ((step sp (unshuffled rules)
          crossoverRate mutationRate st).2.1.bestFitness sp) = true := by
  refine ⟨?_, fun _ _ _ _ _ _ _ h hguard => isCached_winner h hguard, ?_, ?_⟩
  · intro ι sp Computed p q s t mid hcaches hsize hcomputed hcalm hcovered
    obtain ⟨hlength, hmid⟩ := hcalm.computed hcaches hcomputed
    exact (hcovered.isLed hcaches (.of_computed (hlength.symm ▸ hsize) hmid)).exists_first
  · intro ds settings notes sorting clock trail trail' outcome htargets h
    refine isCached_winner h fun st u hbegun => ?_
    have hclosed : (Plan.forests (.fuzzy ds settings) rules notes sorting).species.IsClosed
        (Forest.IsSound ds) := Forest.species_isClosed htargets settings sorting
    obtain ⟨n, hn, hst⟩ := consists_begun hclosed (Forest.returns_random ds settings) hbegun
    exact guarded_of_isClosed hclosed hn clock _ hst u
  · intro ctx sorting crossoverRate mutationRate st sp hexposed
    obtain ⟨⟨f, hf, hnone⟩, hzero⟩ := hexposed.exists_failed
      (fun f : Forest Float => f.fitness? = none) (fun h => Forest.fitness?_of_error h) fun p f =>
        (Forest.returns_mutatePass p [] f.code).bind fun _ _ => .pure trivial
    refine ⟨f, hf, by rw [Forest.isEvaluated, hnone, Option.isSome_none], ?_⟩
    rw [Forest.fitness, hnone]
    exact hzero

end Evolution

namespace Probe

/-- A mutation leaves a probe as it is or drops its fitness. -/
lemma caches : species.Caches fun x => x.fitness? = some x.value where
  evaluate {x y s t fitness} h := by
    simp only [species] at h
    split at h <;> cases h
    rfl
  fail {x y s t e} h hx := by
    simp only [species] at h
    split at h <;> cases h
    exact hx
  mutated {p x y s t} h hx := by
    obtain ⟨u, _, -, h⟩ := Act.bind_eq_ok.mp h
    split at h
    · obtain ⟨v, _, -, h⟩ := Act.bind_eq_ok.mp h
      cases h
      exact .inr rfl
    · cases h
      exact hx

end Probe

namespace Breeding

/-- Four equal numbers, of which the third one cannot be evaluated again. -/
def oneBroken : List Probe :=
  [.ofValue 0.5 false, .ofValue 0.5 false, .ofValue 0.5 true, .ofValue 0.5 false]

/-- The third number is mixed up in vain, and zero is worse than a half.  A run of forests ends with
one that was evaluated. -/
theorem winner_computed_oneBroken :
    (let sp := Probe.species
      let rules : EvolutionSettings := { shuffle := true, selection := .elitary }
      let source : Source := ⟨fun n => (n * 4611686018427387904 + 1).toUInt64, 0, 4⟩
      let r := step sp rules 0.0 0.0 (⟨oneBroken, none, none⟩, { source })
      r.1.isOk = false ∧ r.2.1.members ≠ oneBroken ∧
        ∃ winner, r.2.1.winner? = some winner ∧ winner.fitness? = some winner.value) ∧
    let rules : EvolutionSettings := { populationSize := 2, generations := 1, shuffle := true }
    let source : Source := ⟨fun n => ((n * 5 + 2) % 9 * 576460752303423488).toUInt64, 0, 4⟩
    let plan := Evolution.Plan.forests (.fuzzy Forest.series {}) rules Event.notes
    ∃ outcome trail, Evolution.run plan (fun _ => 0.0) ([], { source }) = (.ok outcome, trail) ∧
      outcome.winner.isEvaluated = true := by
  refine ⟨?_, ?_⟩
  · intro sp rules source r
    refine ⟨by decide +kernel, by decide +kernel, ?_⟩
    refine (Evolution.winner_computed rules).1 (p := ⟨oneBroken, none, none⟩) (s := { source })
      Probe.caches (by decide) (by decide +kernel) .start
      (.step 0.0 0.0 source .start (by decide +kernel) ⟨?_, .inl (by decide +kernel)⟩)
    rintro ⟨-, hzero⟩
    revert hzero
    decide +kernel
  · intro rules source plan
    have hok : (Evolution.run plan (fun _ => 0.0) ([], { source })).1.isOk = true := by
      decide +kernel
    rcases hrun : Evolution.run plan (fun _ => 0.0) ([], { source }) with ⟨e | outcome, trail⟩ <;>
      rw [hrun] at hok
    · cases hok
    · exact ⟨outcome, trail, rfl,
        ((Evolution.winner_computed rules).2.2.1 _ _ _ _ _ _ _ _ (by decide) hrun).1⟩

/-- Where small numbers are better, the number that was not evaluated comes first. -/
theorem exists_winner_not_computed :
    ¬∀ (rules : EvolutionSettings) (p : Population Probe) (s : Session)
      (crossoverRate mutationRate : Float), 2 ≤ p.members.length →
      (∀ x ∈ p.members, x.fitness? = some x.value) →
      isTolerated (step Probe.species rules crossoverRate mutationRate (p, s)).1 = true →
      ∀ winner ∈ (step Probe.species rules crossoverRate mutationRate (p, s)).2.1.winner?,
        winner.fitness? = some winner.value := by
  intro h
  have hwinner := h { direction := .minimize, shuffle := true, selection := .elitary }
    ⟨oneBroken, none, none⟩ { source := ⟨fun n => (n * 4611686018427387904 + 1).toUInt64, 0, 4⟩ }
    0.0 0.0 (by decide) (by decide +kernel) (by decide +kernel)
  exact absurd hwinner (by decide +kernel)

end Breeding

end FuzzyForest
