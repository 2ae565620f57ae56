/-
The leaders of a population.

The leaders are the members whose fitness is the best one.  Where ties with the best member are
dropped and nothing is mixed up, no child ever joins them: a child that is taken is worse than the
best member, and then so was the one that it replaces, or it is better than all members, and then it
leads alone.  Two children of one step are offered one after the other, so that the second one is
compared with the best member that the first one has left.  The main results are

* `Population.keepsLead_of_taken`: what a child that is no tie does to the lead;
* `Breeding.keeps_migrateOne_lead`, `Breeding.keeps_step`, `Breeding.keeps_breedings`: one offer,
  one step, any steps;
* `Breeding.leaders_stay_unique`: leaders get no company, and a new best fitness has one leader.
-/
import FuzzyForest.Proofs.UnbeatenWinner

namespace FuzzyForest

variable {ι : Type}

namespace Ranking

/-- The entries around an inserted child, and the one that it has replaced. -/
lemma Inserted.perm {better : ι → ι → Bool} {child : ι} {target place : ℕ} {xs ys : List ι}
    (h : Inserted better child target place xs ys) : ∃ member others,
      xs.Perm (member :: others) ∧ ys.Perm (child :: others) ∧ better child member = true := by
  obtain ⟨member, hmember, hbetter⟩ := h.worse
  obtain ⟨htarget, rfl⟩ := List.getElem?_eq_some_iff.mp hmember
  obtain ⟨hplace, hchild⟩ := List.getElem?_eq_some_iff.mp h.child
  refine ⟨xs[target], xs.eraseIdx target, (List.getElem_cons_eraseIdx_perm htarget).symm, ?_,
    hbetter⟩
  rw [← h.others, ← hchild]
  exact (List.getElem_cons_eraseIdx_perm hplace).symm

end Ranking

namespace Population

open Ranking

/-- The number of members whose fitness is the best one. -/
def leaders (sp : Species ι) (p : Population ι) : ℕ :=
  p.members.countP fun x => sp.fitness x == p.bestFitness sp

/-- The best fitness stays and as many members have it, or it gives way to a better one, which a
single member has. -/
def KeepsLead (sp : Species ι) (d : Direction) (p q : Population ι) : Prop :=
  (q.bestFitness sp = p.bestFitness sp ∧ q.leaders sp = p.leaders sp) ∨
    (d.isBetter (q.bestFitness sp) (p.bestFitness sp) = true ∧ q.leaders sp = 1)

variable {sp : Species ι} {d : Direction} {n : ℕ} {p q r : Population ι}

lemma KeepsLead.refl (p : Population ι) : p.KeepsLead sp d p := .inl ⟨rfl, rfl⟩

lemma KeepsLead.trans (h : p.KeepsLead sp d q) (h' : q.KeepsLead sp d r) : p.KeepsLead sp d r := by
  rcases h with ⟨hbest, hleaders⟩ | ⟨hbetter, hleaders⟩
  · rwa [KeepsLead, hbest, hleaders] at h'
  · rcases h' with ⟨hbest', hleaders'⟩ | ⟨hbetter', hleaders'⟩
    · exact .inr ⟨hbest' ▸ hbetter, hleaders'.trans hleaders⟩
    · exact .inr ⟨d.isBetter_trans hbetter' hbetter, hleaders'⟩

/-! ### One child -/

/-- The best member of a population in order. -/
lemma InOrder.exists_winner (hp : p.InOrder sp d n) (hn : 0 < n) :
    ∃ w ∈ p.members, p.members.head? = some w ∧ p.bestFitness sp = sp.fitness w ∧
      ∀ x ∈ p.members, better sp d x w = false := by
  obtain ⟨w, hw, hbest⟩ := hp.bestFirst.isUnbeaten (better_asymm sp d)
    (List.ne_nil_of_length_pos (hp.size ▸ hn))
  refine ⟨w, List.mem_of_mem_head? hw, hw, ?_, hbest⟩
  rw [bestFitness, show p.members.head? = some w from hw]
  rfl

/-- A member that is better than all others leads alone. -/
lemma InOrder.leads_alone (hq : q.InOrder sp d n) {child : ι} {others : List ι}
    (hperm : q.members.Perm (child :: others))
    (hbetter : ∀ x ∈ others, better sp d child x = true) :
    q.bestFitness sp = sp.fitness child ∧ q.leaders sp = 1 := by
  have hn : 0 < n := by rw [← hq.size, hperm.length_eq]; simp
  have hchild : child ∈ q.members := hperm.mem_iff.mpr List.mem_cons_self
  obtain ⟨w, hw, -, hfitness, hbest⟩ := hq.exists_winner hn
  have hfirst : q.bestFitness sp = sp.fitness child := by
    rcases List.mem_cons.mp (hperm.mem_iff.mp hw) with rfl | hother
    · exact hfitness
    · have := hbetter w hother
      rw [hbest child hchild] at this
      cases this
  refine ⟨hfirst, ?_⟩
  have hself : (sp.fitness child == sp.fitness child) = true :=
    (Binary64.beq_iff_rank_eq (hq.defined child hchild) (hq.defined child hchild)).mpr rfl
  have hothers : others.countP (fun x => sp.fitness x == sp.fitness child) = 0 :=
    List.countP_eq_zero.mpr fun x hx => by
      rw [(d.beq_eq_false_of_isBetter (hbetter x hx)).2]
      exact Bool.false_ne_true
  rw [leaders, hfirst, hperm.countP_eq, List.countP_cons, hothers, hself]
  rfl

/-- The best fitness stays where the first member does, or where nobody is better than it. -/
lemma bestFitness_of_leads {w : ι} (hleads : Leads (better sp d) p.members q.members)
    (hhead : p.members.head? = some w) (hbest : ∀ x ∈ q.members, better sp d x w = false) :
    q.bestFitness sp = p.bestFitness sp := by
  rcases hleads with h | ⟨w', hw', v, hv, hvw⟩
  · rw [bestFitness, h, bestFitness]
  · obtain rfl : w' = w := Option.mem_unique hw' hhead
    rw [hbest v (List.mem_of_mem_head? hv)] at hvw
    cases hvw

/-- An entry that is worse than the best one does not count. -/
lemma countP_of_worse {b : Float} {x : ι} {xs others : List ι} (hperm : xs.Perm (x :: others))
    (hworse : d.isBetter b (sp.fitness x) = true) :
    xs.countP (fun y => sp.fitness y == b) = others.countP fun y => sp.fitness y == b := by
  rw [hperm.countP_eq, List.countP_cons, (d.beq_eq_false_of_isBetter hworse).2]
  rfl

/-- **A child that is no tie with the best member keeps the lead.**  If it is better, it is better
than all; and if it is worse, it has replaced one that was worse still. -/
theorem keepsLead_of_taken (hp : p.InOrder sp d n) {child member : ι} {members : List ι}
    {target place : ℕ} (htie : (sp.fitness child == p.bestFitness sp) = false)
    (hmember : p.members[target]? = some member) (hbetter : better sp d child member = true)
    (hsettled : settled? (better sp d) (p.members.set target child) target
      = some (members, place)) :
    InOrder sp d n { p with members } ∧ KeepsLead sp d p { p with members } := by
  let q : Population ι := { p with members }
  have hq : q.InOrder sp d n := by
    obtain ⟨ys, place', hsettled', hys⟩ := hp.settled hmember hbetter
    rw [hsettled] at hsettled'
    cases hsettled'
    exact hys
  refine ⟨hq, ?_⟩
  have hleads : Leads (better sp d) p.members q.members :=
    leads_settled (better_trans sp d) hmember hbetter hsettled
  obtain ⟨member, others, hxs, hys, hbetter⟩ := (inserted_settled hmember hbetter hsettled).perm
  obtain ⟨w, hw, hhead, hfitness, hbest⟩ :=
    hp.exists_winner (by rw [← hp.size, hxs.length_eq]; exact Nat.succ_pos _)
  have hsides : better sp d child w = true ∨ better sp d w child = true := by
    have h := d.isBetter_or_beq (d.isNaN_of_isBetter hbetter) (hp.defined w hw)
    rwa [← hfitness, htie, Bool.false_eq_true, or_false, hfitness] at h
  have hothers : ∀ x ∈ others, x ∈ p.members :=
    fun x hx => hxs.mem_iff.mpr (List.mem_cons_of_mem _ hx)
  rcases hsides with hwins | hloses
  · -- what is better than the best member is better than all
    obtain ⟨hfirst, hleaders⟩ := hq.leads_alone hys fun x hx => by
      refine ((better_isWeakOrder sp d).split (hp.defined x (hothers x hx)) hwins).resolve_right ?_
      rw [hbest x (hothers x hx)]
      exact Bool.false_ne_true
    refine .inr ⟨?_, hleaders⟩
    rw [hfirst, hfitness]
    exact hwins
  · -- nobody comes before the best member, and neither the child nor its rival is a leader
    have hsame : q.bestFitness sp = p.bestFitness sp := by
      refine bestFitness_of_leads hleads hhead fun x hx => ?_
      rcases List.mem_cons.mp (hys.mem_iff.mp hx) with rfl | hother
      · exact better_asymm sp d _ _ hloses
      · exact hbest x (hothers x hother)
    refine .inl ⟨hsame, ?_⟩
    rw [leaders, leaders, hsame, hfitness, countP_of_worse hys hloses,
      countP_of_worse hxs (better_trans sp d _ _ _ hloses hbetter)]

end Population

/-! ### Steps -/

namespace Breeding

open Act (Triple)
open Population Ranking

variable {sp : Species ι} {rules : EvolutionSettings} {n : ℕ}

/-- A child that ties the best member is dropped, and any other one keeps the lead. -/
lemma keeps_migrateOne_lead (hguard : rules.preventStagnation = true) (hn : 0 < n) (child : ι)
    (p : Population ι) :
    Keeps (fun q => q.InOrder sp rules.direction n ∧ p.KeepsLead sp rules.direction q)
      (migrateOne sp rules child) := by
  rintro ⟨q, s⟩ ⟨hq, hlead⟩
  have hends := offerEnds_migrateOne sp rules child (hq.size ▸ hn) s
  generalize migrateOne sp rules child (q, s) = r at hends ⊢
  cases hends with
  | dropped => exact ⟨hq, hlead⟩
  | stalled => exact ⟨hq, hlead⟩
  | refused => exact ⟨hq, hlead⟩
  | taken hties _ hmember hbetter hsettled =>
    have htie : (sp.fitness child == q.bestFitness sp) = false := by
      obtain ⟨w, -, hw, hfitness, -⟩ := hq.exists_winner hn
      rw [hguard, Bool.true_and, ties, winner?, hw, Option.any_some, Bool.or_eq_false_iff] at hties
      rw [hfitness]
      exact hties.1
    obtain ⟨hinOrder, hkeeps⟩ := keepsLead_of_taken hq htie hmember hbetter hsettled
    exact ⟨hinOrder, hlead.trans hkeeps⟩

/-- What the offer of any child keeps, a step without mixing up does. -/
lemma keeps_step {I : Population ι → Prop} (hI : IgnoresOffspring I)
    (hmigrateOne : ∀ child, Keeps I (migrateOne sp rules child)) (hshuffle : rules.shuffle = false)
    (crossoverRate mutationRate : Float) :
    Keeps I (step sp rules crossoverRate mutationRate) := by
  have hoffer : ∀ child : Option ι, Keeps I (offer sp rules child) := by
    rintro (_ | child)
    · exact .pure _
    · exact .bind (hmigrateOne child) fun _ => .pure _
  rw [step_eq_unshuffled sp hshuffle, step_unshuffled]
  refine .bind (.bind (keeps_select hI) fun _ => .bind (keeps_recombine hI _) fun _ =>
    .bind (keeps_mutate hI _) fun _ => keeps_evaluateChildren hI) fun _ => ?_
  exact .bind .population fun p => .bind (.modify fun _ h => hI _ _ _ h) fun _ =>
    .bind (hoffer p.son) fun _ => hoffer p.daughter

/-- Steps, each with its rates of crossover and mutation and a source to draw from. -/
def breedings (steps : List ((Float × Float) × Source)) : List (Call ι × Source) :=
  steps.map fun c => (.step c.1.1 c.1.2, c.2)

/-- What each step keeps, any number of steps does. -/
lemma keeps_breedings {I : Population ι → Prop}
    (hstep : ∀ crossoverRate mutationRate, Keeps I (step sp rules crossoverRate mutationRate))
    (steps : List ((Float × Float) × Source)) {st : Population ι × Session} (hst : I st.1) :
    I (after sp rules st (breedings steps)).1 := by
  induction steps generalizing st with
  | nil => exact hst
  | cons c steps ih => exact ih (Triple.state (hstep c.1.1 c.1.2) hst)

/-- **Leaders get no company.**  Where ties with the best member are dropped and nothing is mixed
up, take any steps from a population in order, whatever becomes of them, and then any later ones.
The best fitness is the same after these or a better one.  In the first case as many members have it
as before, and in the second one a single member has it. -/
theorem leaders_stay_unique (sp : Species ι) (rules : EvolutionSettings)
    (hguard : rules.preventStagnation = true) (hshuffle : rules.shuffle = false) {n : ℕ}
    (hn : 0 < n) {p : Population ι} (hp : p.InOrder sp rules.direction n) (s : Session)
    (steps later : List ((Float × Float) × Source)) :
    let now := (after sp rules (p, s) (breedings steps)).1
    let next := (after sp rules (p, s) (breedings (steps ++ later))).1
    (next.bestFitness sp = now.bestFitness sp ∨
      rules.direction.isBetter (next.bestFitness sp) (now.bestFitness sp) = true) ∧
    ((next.bestFitness sp == now.bestFitness sp) = true → next.leaders sp = now.leaders sp) ∧
    (rules.direction.isBetter (next.bestFitness sp) (now.bestFitness sp) = true →
      next.leaders sp = 1) := by
  intro now next
  have hI : IgnoresOffspring (InOrder sp rules.direction n) := InOrder.ignoresOffspring
  have hnow : now.InOrder sp rules.direction n :=
    keeps_breedings (keeps_step hI keeps_migrateOne hshuffle) steps hp
  have hlead : next.InOrder sp rules.direction n ∧ now.KeepsLead sp rules.direction next := by
    have hnext : next = (after sp rules (after sp rules (p, s) (breedings steps))
        (breedings later)).1 := by
      simp only [next, after, breedings, List.map_append, List.foldl_append]
    rw [hnext]
    refine keeps_breedings (I := fun q => q.InOrder sp rules.direction n ∧
      now.KeepsLead sp rules.direction q) (keeps_step ?_ ?_ hshuffle) later ⟨hnow, .refl now⟩
    · exact fun q son daughter hq => ⟨hI q son daughter hq.1, hq.2⟩
    · exact fun child => keeps_migrateOne_lead hguard hn child now
  rcases hlead.2 with ⟨hsame, hleaders⟩ | ⟨hbetter, hleaders⟩
  · refine ⟨.inl hsame, fun _ => hleaders, fun hbetter => ?_⟩
    rw [hsame] at hbetter
    have hworse := rules.direction.isBetter_asymm hbetter
    rw [hbetter] at hworse
    cases hworse
  · refine ⟨.inr hbetter, fun hsame => ?_, fun _ => hleaders⟩
    rw [(rules.direction.beq_eq_false_of_isBetter hbetter).1] at hsame
    cases hsame

/-- Two of four numbers lead.  Children between them and the others come in first, and then two
children that are better than all, of which the second one is dropped. -/
theorem leaders_stay_unique_probes :
    let sp := Probe.species
    let rules : EvolutionSettings :=
      { preventStagnation := true, selection := .elitary, migration := .steadyStateReverseFitness }
    let source (words : List ℕ) : Source := ⟨fun n => (words.getD n 0 * 2 ^ 60).toUInt64, 0, 4⟩
    let p : Population Probe :=
      ⟨[0.75, 0.75, 0.5, 0.25].map (Probe.ofValue · false), none, none⟩
    let first := [((0.0, 1.0), source [0, 0, 10, 0, 12, 15, 15])]
    let second := [((0.0, 1.0), source [0, 0, 14, 0, 14, 15, 0])]
    let now := (after sp rules (p, { source := source [] }) (breedings first)).1
    let next := (after sp rules (p, { source := source [] }) (breedings (first ++ second))).1
    p.InOrder sp rules.direction 4 ∧ now.members ≠ p.members ∧ now.leaders sp = p.leaders sp ∧
      next.leaders sp = 1 := by
  intro sp rules source p first second now next
  have hp : p.InOrder sp rules.direction 4 := by
    refine ⟨rfl, by decide +kernel, ?_⟩
    rw [BestFirst]
    decide +kernel
  obtain ⟨-, hsame, -⟩ := leaders_stay_unique sp rules rfl rfl (by decide) hp
    { source := source [] } [] first
  obtain ⟨-, -, hbetter⟩ := leaders_stay_unique sp rules rfl rfl (by decide) hp
    { source := source [] } first second
  exact ⟨hp, by decide +kernel, hsame (by decide +kernel), hbetter (by decide +kernel)⟩

end Breeding

end FuzzyForest
