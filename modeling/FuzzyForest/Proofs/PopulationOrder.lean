/-
The order of a population.

Every operation on a population keeps its size, and as long as the fitness of its members is
defined it keeps them in order, whether it succeeds or fails.  A child takes the place of one
member and then finds its own among the others; a mixed up half is sorted in even when some of it
cannot be evaluated.
-/
import FuzzyForest.Population.Breeding
import FuzzyForest.Population.Probe
import FuzzyForest.Proofs.Order
import FuzzyForest.Proofs.Ranking
import FuzzyForest.Proofs.Schedules
import Mathlib.Data.List.Infix

namespace FuzzyForest

open Act (Triple)

variable {ι α : Type}

/-! ### Parts of a breeding step -/

namespace Breeding

variable {P : Population ι × Session → Prop} {Q : α → Population ι × Session → Prop}
  {E : Error → Population ι × Session → Prop}

lemma triple_modify {f : Population ι → Population ι} {Q : Unit → Population ι × Session → Prop}
    (h : ∀ p s, P (p, s) → Q () (f p, s)) : Triple P (modify f) Q E :=
  fun (p, s) hP => h p s hP

/-- What is done aside does not touch the population. -/
lemma triple_aside {m : Run α}
    (h : ∀ p, Triple (fun s => P (p, s)) m (fun a s => Q a (p, s)) fun e s => E e (p, s)) :
    Triple P (aside m) Q E := by
  refine Triple.within fun (p, s) hP t ht => ?_
  cases ht
  exact h p s hP

/-- A property of the population that an operation keeps, also when it fails. -/
def Keeps (I : Population ι → Prop) (m : Breeding ι α) : Prop :=
  Triple (fun st => I st.1) m (fun _ st => I st.1) fun _ st => I st.1

variable {I : Population ι → Prop}

lemma Keeps.pure (a : α) : Keeps I (Pure.pure a : Breeding ι α) := Triple.pure fun _ h => h

lemma Keeps.fail (e : Error) : Keeps I (Act.fail e : Breeding ι α) := Triple.fail fun _ h => h

lemma Keeps.bind {β : Type} {m : Breeding ι β} {f : β → Breeding ι α} (hm : Keeps I m)
    (hf : ∀ b, Keeps I (f b)) : Keeps I (m >>= f) := Triple.bind hm hf

lemma Keeps.aside (m : Run α) : Keeps I (aside m) := triple_aside fun p => Triple.const (c := I p)

lemma Keeps.population : Keeps I (population (ι := ι)) := fun _ h => h

lemma Keeps.modify {f : Population ι → Population ι} (h : ∀ p, I p → I (f p)) :
    Keeps I (modify f) := triple_modify fun p _ => h p

/-- An operation that looks at the population first. -/
lemma triple_population_bind {f : Population ι → Breeding ι α}
    (h : ∀ p, I p → Triple (fun st => st.1 = p) (f p) Q E) :
    Triple (fun st => I st.1) (population >>= f) Q E :=
  fun st hI => h st.1 hI st rfl

/-- What is done aside leaves the population as it is, and ends as it does anywhere. -/
lemma triple_aside_ends {m : Run α} {R : α → Prop} {F : Error → Prop} {p : Population ι}
    (h : Triple (fun _ => True) m (fun a _ => R a) fun e _ => F e) :
    Triple (fun st => st.1 = p) (aside m) (fun a st => st.1 = p ∧ R a)
      fun e st => F e ∧ st.1 = p := by
  refine triple_aside fun q s hq => ?_
  rcases hm : m s with ⟨e | a, t⟩
  · exact ⟨h.error trivial hm, hq⟩
  · exact ⟨hq, h.ok trivial hm⟩

lemma triple_of_keeps {m : Breeding ι α} {p : Population ι} (hp : I p) (h : Keeps (· = p) m) :
    Triple (fun st => st.1 = p) m (fun _ st => I st.1) fun _ st => I st.1 := by
  refine Triple.mono h (fun _ h => h) ?_ ?_
  · rintro _ st rfl
    exact hp
  · rintro _ st rfl
    exact hp

end Breeding

/-! ### Being in order -/

namespace Population

/-- Every member has a fitness that is a number. -/
def IsDefined (sp : Species ι) (p : Population ι) : Prop :=
  ∀ x ∈ p.members, (sp.fitness x).isNaN = false

instance (sp : Species ι) (p : Population ι) : Decidable (p.IsDefined sp) :=
  inferInstanceAs (Decidable (∀ x ∈ p.members, (sp.fitness x).isNaN = false))

/-- A population of `n` members, no one better than a member before it. -/
structure InOrder (sp : Species ι) (d : Direction) (n : Nat) (p : Population ι) : Prop where
  size : p.members.length = n
  defined : p.IsDefined sp
  bestFirst : Ranking.BestFirst (better sp d) p.members

/-- Among members whose fitness is a number being better is a strict weak order. -/
lemma better_isWeakOrder (sp : Species ι) (d : Direction) :
    Ranking.IsWeakOrder (better sp d) fun x => (sp.fitness x).isNaN = false where
  asymm := d.isBetter_asymm
  split := d.isBetter_or_isBetter

/-- The same where the fitness of a member may turn out not to be a number, and then nothing is
said about the order. -/
def Orderly (sp : Species ι) (d : Direction) (n : Nat) (p : Population ι) : Prop :=
  p.members.length = n ∧ (p.IsDefined sp → Ranking.BestFirst (better sp d) p.members)

variable {sp : Species ι} {d : Direction} {n : Nat} {p : Population ι}

lemma InOrder.orderly (h : p.InOrder sp d n) : p.Orderly sp d n := ⟨h.size, fun _ => h.bestFirst⟩

lemma Orderly.inOrder (h : p.Orderly sp d n) (hdefined : p.IsDefined sp) : p.InOrder sp d n :=
  ⟨h.1, hdefined, h.2 hdefined⟩

/-- A property of a population whatever its offspring. -/
def IgnoresOffspring (I : Population ι → Prop) : Prop :=
  ∀ p son daughter, I p → I { p with son, daughter }

lemma InOrder.ignoresOffspring : IgnoresOffspring (InOrder sp d n) :=
  fun _ _ _ h => ⟨h.size, h.defined, h.bestFirst⟩

/-! ### Sorting -/

/-- The members are few, or they have fitness values that are numbers. -/
def IsSortable (sp : Species ι) (p : Population ι) : Prop :=
  p.members.length ≤ Ranking.few ∨ p.IsDefined sp

lemma IsDefined.isSortable (h : p.IsDefined sp) : p.IsSortable sp := .inr h

/-- It does not matter how the members stand. -/
lemma IsSortable.perm {q : Population ι} (h : p.IsSortable sp) (hq : q.members.Perm p.members) :
    q.IsSortable sp :=
  h.imp (fun hfew => hq.length_eq ▸ hfew) fun hdefined x hx => hdefined x (hq.mem_iff.mp hx)

lemma members_ranked_perm (sp : Species ι) (d : Direction) (p : Population ι) :
    (ranked sp d p).members.Perm p.members := sp.sorting.sorted_perm _ _

lemma isSortable_ranked_iff : (ranked sp d p).IsSortable sp ↔ p.IsSortable sp :=
  ⟨fun h => h.perm (members_ranked_perm sp d p).symm, fun h => h.perm (members_ranked_perm sp d p)⟩

namespace IsSortable

variable (h : p.IsSortable sp)

include h

lemma isSortable_members (d : Direction) : Ranking.IsSortable (better sp d) p.members :=
  h.imp_right (better_isWeakOrder sp d).mono

/-- It is settled how a sort leaves the members. -/
lemma members_ranked : (ranked sp d p).members = Ranking.sorted (better sp d) p.members :=
  sp.sorting.sorted_eq (h.isSortable_members d)

/-- The sort comes to its end. -/
lemma checkSort_eq : checkSort sp d p = .ok () :=
  if_pos (sp.sorting.completes_eq (h.isSortable_members d))

end IsSortable

/-- A sort that breaks off does so over many members, some of them without a fitness that is a
number. -/
lemma eq_unsortable_of_checkSort {e : Error} (h : checkSort sp d p = .error e) :
    e = .unsortable ∧ ¬p.IsSortable sp := by
  refine ⟨?_, fun hp => by rw [hp.checkSort_eq] at h; cases h⟩
  rw [checkSort] at h
  split at h <;> cases h
  rfl

/-- Two members or more make up a population, unless their sort breaks off. -/
lemma ofMembers_of_two_le {members : List ι} (h : 2 ≤ members.length) :
    ofMembers sp d members = (checkSort sp d ⟨members, none, none⟩).map
      fun _ => ranked sp d ⟨members, none, none⟩ :=
  if_neg (Nat.not_lt.mpr h)

lemma ofMembers_eq_ok_iff {members : List ι} : ofMembers sp d members = .ok p ↔
    2 ≤ members.length ∧ checkSort sp d ⟨members, none, none⟩ = .ok () ∧
      ranked sp d ⟨members, none, none⟩ = p := by
  by_cases htwo : 2 ≤ members.length
  · rw [ofMembers_of_two_le htwo]
    cases checkSort sp d ⟨members, none, none⟩ <;> simp [Except.map, htwo]
  · simp [ofMembers, htwo, Nat.not_le.mp htwo]

/-- Two members or more of which it is settled how they are sorted make up a population. -/
lemma IsSortable.ofMembers_eq {members : List ι} (h : IsSortable sp ⟨members, none, none⟩)
    (hsize : 2 ≤ members.length) :
    ofMembers sp d members = .ok (ranked sp d ⟨members, none, none⟩) :=
  ofMembers_eq_ok_iff.mpr ⟨hsize, h.checkSort_eq, rfl⟩

/-- Sorting puts any members in order. -/
lemma orderly_ranked (sp : Species ι) (d : Direction) (p : Population ι) :
    (ranked sp d p).Orderly sp d p.members.length := by
  refine ⟨(members_ranked_perm sp d p).length_eq, fun h => ?_⟩
  have hp : p.IsDefined sp := fun x hx => h x ((members_ranked_perm sp d p).mem_iff.mpr hx)
  rw [hp.isSortable.members_ranked]
  exact Ranking.sorted_bestFirst (better_isWeakOrder sp d) hp

/-- A better child in the place of a member finds its own place. -/
lemma InOrder.settled (h : p.InOrder sp d n) {target : Nat} {child member : ι}
    (htarget : p.members[target]? = some member) (hbetter : better sp d child member = true) :
    ∃ ys place, Ranking.settled? (better sp d) (p.members.set target child) target
        = some (ys, place) ∧ InOrder sp d n { p with members := ys } := by
  obtain ⟨hlt, -⟩ := List.getElem?_eq_some_iff.mp htarget
  have hchild : (sp.fitness child).isNaN = false := d.isNaN_of_isBetter hbetter
  have hdefined : ∀ x ∈ p.members.set target child, (sp.fitness x).isNaN = false := by
    intro x hx
    rcases List.mem_or_eq_of_mem_set hx with hx | rfl
    · exact h.defined x hx
    · exact hchild
  -- without the child the others are ranked as before
  have hothers : Ranking.BestFirst (better sp d)
      ((p.members.set target child).eraseIdx target) := by
    rw [List.eraseIdx_set_eq]
    exact h.bestFirst.sublist (List.eraseIdx_sublist _ _)
  obtain ⟨ys, place, hsettled, hperm, hys⟩ := Ranking.settled_bestFirst (better_isWeakOrder sp d)
    (by rwa [List.length_set]) hdefined hothers
  refine ⟨ys, place, hsettled, ?_, fun x hx => hdefined x (hperm.mem_iff.mp hx), hys⟩
  rw [hperm.length_eq, List.length_set, h.size]

end Population

/-! ### Operations -/

namespace Breeding

open Population

variable {sp : Species ι} {rules : EvolutionSettings} {d : Direction} {n : Nat}

section

variable {I : Population ι → Prop} (hI : IgnoresOffspring I)

include hI

lemma keeps_select : Keeps I (select sp rules) := by
  refine .bind .population fun p => .bind (.aside _) fun places => .bind (.aside _) fun _ => ?_
  rcases places with ⟨first, second⟩
  dsimp only
  split
  · exact .bind (.modify fun _ h => hI _ _ _ h) fun _ => .pure _
  · exact .fail _

lemma keeps_recombine (rate : Float) : Keeps I (recombine sp rate) := by
  refine .bind .population fun p => ?_
  dsimp only
  split
  · refine .bind (.aside _) fun roll => ?_
    split
    · exact .bind (.aside _) fun _ => .bind (.aside _) fun _ => .modify fun _ h => hI _ _ _ h
    · exact .pure _
  · exact .pure _

lemma keeps_mutate (rate : Float) : Keeps I (mutate sp rate) :=
  .bind .population fun _ => .bind (.aside _) fun _ => .bind (.aside _) fun _ =>
    .modify fun _ h => hI _ _ _ h

/-- A failing evaluation leaves the population without offspring, and else as it was. -/
lemma keeps_evaluateChildren : Keeps I (evaluateChildren sp) :=
  .bind .population fun _ => .bind (.modify fun _ h => hI _ _ _ h) fun _ =>
    .bind (.aside _) fun _ => .bind (.aside _) fun _ => .modify fun _ h => hI _ _ _ h

end

/-- A child that takes the place of a worse member leaves the population in order. -/
lemma keeps_migrateOne (child : ι) :
    Keeps (InOrder sp rules.direction n) (migrateOne sp rules child) := by
  refine triple_population_bind fun p hp => ?_
  split
  · exact triple_of_keeps hp (.bind (.aside _) fun _ => .pure _)
  · refine Triple.bind (R := fun _ st => st.1 = p)
      (Triple.mono (Keeps.aside (I := (· = p)) _) (fun _ h => h) (fun _ _ h => h) ?_)
      fun target => ?_
    · rintro _ st rfl
      exact hp
    · split
      · exact triple_of_keeps hp (.fail _)
      · rename_i member htarget
        split
        · rename_i hbetter
          obtain ⟨ys, place, hsettled, hys⟩ := hp.settled htarget hbetter
          rintro ⟨p, s⟩ rfl
          simp only [settle, modify, population, Act.bind_apply, hsettled]
          exact hys
        · exact triple_of_keeps hp (.pure _)

lemma keeps_offer (child : Option ι) :
    Keeps (InOrder sp rules.direction n) (offer sp rules child) := by
  cases child with
  | none => exact .pure _
  | some child => exact .bind (keeps_migrateOne child) fun _ => .pure _

lemma keeps_migrate : Keeps (InOrder sp rules.direction n) (migrate sp rules) :=
  .bind .population fun p => .bind (.modify fun _ h => InOrder.ignoresOffspring _ _ _ h) fun _ =>
    .bind (keeps_offer p.son) fun _ => keeps_offer p.daughter

/-- A sort leaves the members in order, also where it breaks off. -/
lemma orderly_sort : Triple (fun st => st.1.members.length = n) (sort sp d)
    (fun _ st => Orderly sp d n st.1) fun _ st => Orderly sp d n st.1 := by
  refine triple_population_bind (I := fun p => p.members.length = n) fun p hp => ?_
  refine Triple.bind (R := fun _ st => Orderly sp d n st.1) (triple_modify ?_) fun _ =>
    Triple.lift (fun _ _ _ h => h) fun _ _ _ h => h
  rintro q s rfl
  exact hp ▸ orderly_ranked sp d q

/-- Mixing up the worse half ends with sorting, also where an evaluation fails. -/
lemma Shuffled.orderly {st : Population ι × Session}
    {r : Except Error Bool × Population ι × Session}
    (h : Shuffled sp d st r) (hst : InOrder sp d n st.1) : Orderly sp d n r.2.1 := by
  have hlength := h.length_eq.trans hst.size
  cases h with
  | idle => exact hst.orderly
  | undrawn => exact hst.orderly
  | mixed =>
    rw [← hlength, (members_ranked_perm sp d _).length_eq]
    exact orderly_ranked sp d _

lemma orderly_shuffle :
    Triple (fun st => InOrder sp d n st.1) (shuffle sp d) (fun _ st => Orderly sp d n st.1)
      fun _ st => Orderly sp d n st.1 :=
  Triple.of_state fun st hst => (shuffled_shuffle sp d st).orderly hst

/-- A breeding step leaves the population in order even if it fails. -/
lemma orderly_step (crossoverRate mutationRate : Float) :
    Triple (fun st => InOrder sp rules.direction n st.1)
      (step sp rules crossoverRate mutationRate) (fun _ st => Orderly sp rules.direction n st.1)
      fun _ st => Orderly sp rules.direction n st.1 := by
  have weaken : ∀ {β : Type} {m : Breeding ι β}, Keeps (InOrder sp rules.direction n) m →
      Triple (fun st => InOrder sp rules.direction n st.1) m
        (fun _ st => InOrder sp rules.direction n st.1)
        fun _ st => Orderly sp rules.direction n st.1 :=
    fun h => h.mono (fun _ h => h) (fun _ _ h => h) fun _ _ h => h.orderly
  refine Triple.bind (weaken (keeps_select InOrder.ignoresOffspring)) fun _ => ?_
  refine Triple.bind (weaken (keeps_recombine InOrder.ignoresOffspring _)) fun _ => ?_
  refine Triple.bind (weaken (keeps_mutate InOrder.ignoresOffspring _)) fun _ => ?_
  refine Triple.bind (weaken (keeps_evaluateChildren InOrder.ignoresOffspring)) fun _ => ?_
  refine Triple.bind (weaken keeps_migrate) fun _ => ?_
  split
  · exact Triple.bind orderly_shuffle fun _ => Triple.pure fun _ h => h
  · exact Triple.pure fun _ h => h.orderly

/-! ### Sequences of calls -/

/-- An operation that somebody asks of a population. -/
inductive Call (ι : Type)
  | step (crossoverRate mutationRate : Float)
  | select
  | recombine (rate : Float)
  | mutate (rate : Float)
  | evaluateChildren
  | migrateOne (child : ι)
  | migrate
  | shuffle
  | sort

/-- What a call does. -/
def Call.run (sp : Species ι) (rules : EvolutionSettings) : Call ι → Breeding ι Unit
  | step crossoverRate mutationRate => Breeding.step sp rules crossoverRate mutationRate
  | select => do let _ ← Breeding.select sp rules
  | recombine rate => Breeding.recombine sp rate
  | mutate rate => Breeding.mutate sp rate
  | evaluateChildren => Breeding.evaluateChildren sp
  | migrateOne child => do let _ ← Breeding.migrateOne sp rules child
  | migrate => Breeding.migrate sp rules
  | shuffle => do let _ ← Breeding.shuffle sp rules.direction
  | sort => Breeding.sort sp rules.direction

/-- The state after calls, each with the source that it draws from.  A call that fails leaves its
state to the next one. -/
def after (sp : Species ι) (rules : EvolutionSettings) (st : Population ι × Session)
    (calls : List (Call ι × Source)) : Population ι × Session :=
  calls.foldl (fun st c => (c.1.run sp rules (st.1, { st.2 with source := c.2 })).2) st

/-- One call leaves an ordered population orderly. -/
lemma orderly_run (c : Call ι) :
    Triple (fun st => InOrder sp rules.direction n st.1) (c.run sp rules)
      (fun _ st => Orderly sp rules.direction n st.1)
      fun _ st => Orderly sp rules.direction n st.1 := by
  have weaken : ∀ {m : Breeding ι Unit}, Keeps (InOrder sp rules.direction n) m →
      Triple (fun st => InOrder sp rules.direction n st.1) m
        (fun _ st => Orderly sp rules.direction n st.1)
        fun _ st => Orderly sp rules.direction n st.1 :=
    fun h => h.mono (fun _ h => h) (fun _ _ h => h.orderly) fun _ _ h => h.orderly
  cases c with
  | step crossoverRate mutationRate => exact orderly_step _ _
  | select => exact weaken (.bind (keeps_select InOrder.ignoresOffspring) fun _ => .pure _)
  | recombine rate => exact weaken (keeps_recombine InOrder.ignoresOffspring rate)
  | mutate rate => exact weaken (keeps_mutate InOrder.ignoresOffspring rate)
  | evaluateChildren => exact weaken (keeps_evaluateChildren InOrder.ignoresOffspring)
  | migrateOne child => exact weaken (.bind (keeps_migrateOne child) fun _ => .pure _)
  | migrate => exact weaken keeps_migrate
  | shuffle => exact Triple.bind orderly_shuffle fun _ => Triple.pure fun _ h => h
  | sort => exact orderly_sort.mono (fun _ h => h.size) (fun _ _ h => h) fun _ _ h => h

/-- The same for a whole sequence, where the fitness of all members was defined all the time. -/
lemma inOrder_after {calls : List (Call ι × Source)} {st : Population ι × Session}
    (hst : Orderly sp rules.direction n st.1)
    (hdefined : ∀ part, part <+: calls → (after sp rules st part).1.IsDefined sp) :
    InOrder sp rules.direction n (after sp rules st calls).1 := by
  induction calls generalizing st with
  | nil => exact hst.inOrder (hdefined [] List.prefix_rfl)
  | cons c calls ih =>
    have hnow : InOrder sp rules.direction n st.1 :=
      hst.inOrder (hdefined [] (List.nil_prefix))
    exact ih (Triple.state (orderly_run c.1) hnow) fun part hpart =>
      hdefined (c :: part) (List.cons_prefix_cons.mpr ⟨rfl, hpart⟩)

/-- **A population keeps its size and its order through any calls**, whether they succeed or fail,
as long as the fitness of its members is a number. -/
theorem bestFirst_after (sp : Species ι) (rules : EvolutionSettings) {members : List ι}
    {p : Population ι} (hp : ofMembers sp rules.direction members = .ok p) (s : Session)
    (calls : List (Call ι × Source))
    (hdefined : ∀ part, part <+: calls → (after sp rules (p, s) part).1.IsDefined sp) :
    (after sp rules (p, s) calls).1.size = members.length ∧
      (after sp rules (p, s) calls).1.members.Pairwise fun x y =>
        better sp rules.direction y x = false := by
  obtain ⟨-, -, rfl⟩ := ofMembers_eq_ok_iff.mp hp
  have h := inOrder_after (orderly_ranked sp rules.direction ⟨members, none, none⟩) hdefined
  exact ⟨h.size, h.bestFirst⟩

/-- Numbers that are bred, mixed up and offered a better one. -/
theorem bestFirst_after_probes :
    let sp := Probe.species
    let rules : EvolutionSettings := { shuffle := true, migration := .steadyStateReverseFitness }
    let members := [Probe.ofValue 0.25 false, Probe.ofValue 0.75 false, Probe.ofValue 0.5 true]
    let source : Source := ⟨fun n => (n * 4611686018427387904 + 1).toUInt64, 0, 4⟩
    let calls : List (Call Probe × Source) := [(.step 0.5 0.5, source), (.shuffle, source),
      (.migrateOne (Probe.ofValue 0.875 false), source), (.step 1.0 1.0, source)]
    let start := ranked sp rules.direction ⟨members, none, none⟩
    let st := after sp rules (start, { source }) calls
    st.1.size = 3 ∧ st.1.members.Pairwise fun x y => better sp rules.direction y x = false := by
  intro sp rules members source calls start
  have hp : ofMembers sp rules.direction members = .ok start := rfl
  refine bestFirst_after sp rules hp { source } calls ?_
  intro part hpart
  rw [← List.mem_inits _ _] at hpart
  revert part
  decide +kernel

end Breeding

end FuzzyForest
