/-
Migration as insertion into a ranking.

`Ranking.settled?` lets one entry of a list change places with its neighbours, first to the front
and then to the back.  Whatever being better means, the entry stands at the place that is returned
and the others keep their order; if being better is asymmetric, a list in which no neighbours were
out of order without the entry has none with it.  A child that is offered to a population takes the
place of its rival and settles, or it changes nothing at all.  The main results are

* `Ranking.moves_settled` and `Ranking.isRanked_settled`: what settling does to a list;
* `Breeding.offerEnds_migrateOne`: every way in which the offer of a child can end;
* `Breeding.migrateOne_inserts`: migration keeps a population in order, and only the rival leaves.
-/
import FuzzyForest.Proofs.ClosedSpecies
import Mathlib.Data.List.Chain

namespace FuzzyForest

variable {ι : Type}

namespace Ranking

variable {better : ι → ι → Bool}

/-! ### Neighbours -/

/-- A list is ranked if no entry is better than its neighbour in front. -/
lemma isRanked_iff (xs : List ι) :
    isRanked better xs = true ↔ xs.IsChain fun x y => better y x = false := by
  induction xs with
  | nil => simp [isRanked]
  | cons x xs ih =>
    cases xs with
    | nil => simp [isRanked]
    | cons y xs => simp [isRanked, ih]

/-- The neighbour before which an entry stops to rise is no worse. -/
lemma not_better_head_risen (x : ι) (before after : List ι) :
    ∀ y ∈ (risen better x before after).1.head?, better x y = false := by
  induction before generalizing after with
  | nil => simp [risen]
  | cons y before ih =>
    rw [risen]
    split
    · exact ih _
    · simp_all

/-- An entry that sinks leaves behind what is better, and stops before a neighbour that is not. -/
lemma not_better_head_sunk (hasymm : ∀ x y, better x y = true → better y x = false) (x : ι)
    {before : List ι} (after : List ι) (hx : ∀ y ∈ before.head?, better x y = false) :
    (∀ y ∈ (sunk better x before after).1.head?, better x y = false) ∧
      ∀ y ∈ (sunk better x before after).2.head?, better y x = false := by
  induction after generalizing before with
  | nil => exact ⟨hx, by simp [sunk]⟩
  | cons y after ih =>
    rw [sunk]
    split
    · rename_i hyx
      refine ih ?_
      rintro z ⟨⟩
      exact hasymm _ _ hyx
    · rename_i hyx
      refine ⟨hx, ?_⟩
      rintro z ⟨⟩
      exact eq_false_of_ne_true hyx

/-- An entry that moves among ranked ones is ranked among them.  The order need not be total: both
passes look at neighbours only. -/
lemma isRanked_moved (hasymm : ∀ x y, better x y = true → better y x = false) (x : ι)
    {before after : List ι} (h : isRanked better (before.reverse ++ after) = true) :
    isRanked better ((moved better x before after).1.reverse
      ++ x :: (moved better x before after).2) = true := by
  obtain ⟨hfront, hback⟩ := not_better_head_sunk hasymm x (risen better x before after).2
    (not_better_head_risen x before after)
  rw [← moved_append x before after] at h
  simp only [isRanked_iff, List.isChain_append, List.isChain_cons, List.getLast?_reverse,
    List.head?_cons] at h ⊢
  refine ⟨h.1, ⟨hback, h.2.1⟩, ?_⟩
  rintro y hy z ⟨⟩
  exact hfront y hy

/-! ### Settling -/

/-- The entry at `position` has moved to `place`, and the others keep their order. -/
structure Moves (xs ys : List ι) (position place : ℕ) : Prop where
  entry : ys[place]? = xs[position]?
  others : ys.eraseIdx place = xs.eraseIdx position

/-- Settling and the place that it returns, by the lists around the entry. -/
lemma settled?_eq_moved (better : ι → ι → Bool) {xs : List ι} {position : ℕ}
    (hlt : position < xs.length) :
    let around := moved better xs[position] (xs.take position).reverse (xs.drop (position + 1))
    settled? better xs position
      = some (around.1.reverse ++ xs[position] :: around.2, around.1.length) := by
  rw [settled?, List.drop_eq_getElem_cons hlt]

/-- **Settling moves one entry.** -/
theorem moves_settled {xs ys : List ι} {position place : ℕ} (hlt : position < xs.length)
    (hsettled : settled? better xs position = some (ys, place)) : Moves xs ys position place := by
  rw [settled?_eq_moved better hlt] at hsettled
  cases hsettled
  constructor
  · simp [hlt]
  · rw [List.eraseIdx_append_of_length_le (by simp)]
    simp [moved_append, List.eraseIdx_eq_take_drop_succ]

/-- **Settling ranks a list that is ranked without the entry.** -/
theorem isRanked_settled (hasymm : ∀ x y, better x y = true → better y x = false)
    {xs ys : List ι} {position place : ℕ} (hlt : position < xs.length)
    (hsettled : settled? better xs position = some (ys, place))
    (h : isRanked better (xs.eraseIdx position) = true) : isRanked better ys = true := by
  rw [settled?_eq_moved better hlt] at hsettled
  cases hsettled
  refine isRanked_moved hasymm _ ?_
  rwa [List.reverse_reverse, ← List.eraseIdx_eq_take_drop_succ]

/-! ### Insertion -/

/-- A child is better than the entry at `target` and has taken its place; it stands at `place` now,
and all other entries keep their order. -/
structure Inserted (better : ι → ι → Bool) (child : ι) (target place : ℕ) (xs ys : List ι) :
    Prop where
  worse : ∃ member, xs[target]? = some member ∧ better child member = true
  child : ys[place]? = some child
  others : ys.eraseIdx place = xs.eraseIdx target

/-- A child that takes the place of a worse entry and settles is inserted. -/
lemma inserted_settled {xs ys : List ι} {child member : ι} {target place : ℕ}
    (hmember : xs[target]? = some member) (hbetter : better child member = true)
    (hsettled : settled? better (xs.set target child) target = some (ys, place)) :
    Inserted better child target place xs ys := by
  obtain ⟨hlt, -⟩ := List.getElem?_eq_some_iff.mp hmember
  have hmoves := moves_settled (by simpa using hlt) hsettled
  refine ⟨⟨member, hmember, hbetter⟩, ?_, ?_⟩
  · rw [hmoves.entry, List.getElem?_set_self hlt]
  · rw [hmoves.others, List.eraseIdx_set_eq]

end Ranking

/-- Of two members at most one is better. -/
lemma Population.better_asymm (sp : Species ι) (d : Direction) (x y : ι)
    (h : better sp d x y = true) : better sp d y x = false :=
  d.isBetter_asymm h

namespace Breeding

open Population Ranking

variable {sp : Species ι} {rules : EvolutionSettings}

/-! ### The offer of a child -/

/-- The ways in which the offer of a child to a population ends.  The rival is drawn only if the
child is not dropped, and there is no failure but that of an exhausted source. -/
inductive OfferEnds (sp : Species ι) (rules : EvolutionSettings) (child : ι) (p : Population ι)
    (s : Session) : Except Error (Option ℕ) × Population ι × Session → Prop
  /-- It is no better than the best member, where that counts. -/
  | dropped (hguard : rules.preventStagnation = true) (hties : ties sp p child = true)
    (t : Session) : OfferEnds sp rules child p s (.ok none, p, t)
  /-- No rival is found. -/
  | stalled {source : Source} (hrival : rival sp rules p s.source = (.error .stalled, source)) :
    OfferEnds sp rules child p s (.error .stalled, p, { s with source })
  /-- It is not better than its rival. -/
  | refused {target : ℕ} {member : ι} {source : Source}
    (hrival : rival sp rules p s.source = (.ok target, source))
    (hmember : p.members[target]? = some member)
    (hworse : better sp rules.direction child member = false) :
    OfferEnds sp rules child p s (.ok none, p, { s with source })
  /-- It takes the place of its rival and settles. -/
  | taken {target place : ℕ} {member : ι} {members : List ι} {source : Source}
    (hguard : (rules.preventStagnation && ties sp p child) = false)
    (hrival : rival sp rules p s.source = (.ok target, source))
    (hmember : p.members[target]? = some member)
    (hbetter : better sp rules.direction child member = true)
    (hsettled : settled? (better sp rules.direction) (p.members.set target child) target
      = some (members, place)) :
    OfferEnds sp rules child p s (.ok (some place), { p with members }, { s with source })

/-- Settling a member of a population. -/
lemma settle_eq {d : Direction} {p : Population ι} {position place : ℕ} {members : List ι}
    (h : settled? (better sp d) p.members position = some (members, place)) (s : Session) :
    settle sp d position (p, s) = (.ok place, { p with members }, s) := by
  simp only [settle, population, Act.bind_apply, h]
  rfl

/-- **Each offer of a child ends in one of these ways**, whatever the fitness of anyone is. -/
theorem offerEnds_migrateOne (sp : Species ι) (rules : EvolutionSettings) (child : ι)
    {p : Population ι} (hp : 0 < p.members.length) (s : Session) :
    OfferEnds sp rules child p s (migrateOne sp rules child (p, s)) := by
  have hrival : Act.Returns (rival sp rules p) (· < p.members.length) := returns_rival hp
  simp only [migrateOne, population, Act.bind_apply]
  split
  · rename_i hguard
    obtain ⟨hguard, hties⟩ := (Bool.and_eq_true _ _).mp hguard
    exact .dropped hguard hties _
  · rename_i hguard
    have hguard := eq_false_of_ne_true hguard
    simp only [Act.bind_apply, draw, aside, Run.draw, Act.within]
    rcases hrun : rival sp rules p s.source with ⟨e | target, source⟩
    · obtain rfl : e = .stalled := hrival.error trivial hrun
      exact .stalled hrun
    · have htarget : target < p.members.length := hrival.ok hrun
      have hmember := List.getElem?_eq_getElem htarget
      simp only [hmember]
      split
      · rename_i hbetter
        have hset : target < (p.members.set target child).length := by simpa using htarget
        have hsettled := settled?_eq_moved (better sp rules.direction) hset
        simp only [modify, Act.bind_apply]
        rw [settle_eq (p := { p with members := p.members.set target child }) hsettled]
        exact .taken hguard hrun hmember hbetter hsettled
      · rename_i hbetter
        exact .refused hrun hmember (eq_false_of_ne_true hbetter)

/-- **Migration is insertion into a ranking.**  In a population in order a child either changes
nothing, because it is dropped or no better than its rival, or it stands at the place that is
returned, the rival has left and the others keep their order; an exhausted source changes nothing,
too.  In general, settling a member leaves no neighbours out of order if there are none without it,
and where every fitness is defined, it puts the whole population in order. -/
theorem migrateOne_inserts (sp : Species ι) (rules : EvolutionSettings) :
    (∀ (n : ℕ) (p : Population ι), 2 ≤ n → p.InOrder sp rules.direction n →
      ∀ (child : ι) (s : Session), match migrateOne sp rules child (p, s) with
        | (.ok none, q, _) => q = p ∧
          (rules.preventStagnation = true ∧ ties sp p child = true ∨
            ∃ target member, (rival sp rules p s.source).1 = .ok target ∧
              p.members[target]? = some member ∧ better sp rules.direction child member = false)
        | (.ok (some place), q, _) => q.InOrder sp rules.direction n ∧
          q.son = p.son ∧ q.daughter = p.daughter ∧
          ∃ target, (rival sp rules p s.source).1 = .ok target ∧
            Inserted (better sp rules.direction) child target place p.members q.members
        | (.error e, q, _) => e = .stalled ∧ q = p) ∧
    ∀ (d : Direction) (p : Population ι) (position : ℕ) (s : Session), position < p.size →
      ∃ members place, settle sp d position (p, s) = (.ok place, { p with members }, s) ∧
        Moves p.members members position place ∧
        (Ranking.isRanked (better sp d) (p.members.eraseIdx position) = true →
          Ranking.isRanked (better sp d) members = true) ∧
        (p.IsDefined sp → BestFirst (better sp d) (p.members.eraseIdx position) →
          BestFirst (better sp d) members) := by
  constructor
  · intro n p hn hp child s
    have hsize : 0 < p.members.length := by rw [hp.size]; omega
    have hends := offerEnds_migrateOne sp rules child hsize s
    generalize migrateOne sp rules child (p, s) = r at hends ⊢
    cases hends with
    | dropped hguard hties t => exact ⟨rfl, .inl ⟨hguard, hties⟩⟩
    | stalled hrival => exact ⟨rfl, rfl⟩
    | refused hrival hmember hworse =>
      exact ⟨rfl, .inr ⟨_, _, by rw [hrival], hmember, hworse⟩⟩
    | taken hguard hrival hmember hbetter hsettled =>
      obtain ⟨ys, place, hsettled', hinOrder⟩ := hp.settled hmember hbetter
      rw [hsettled] at hsettled'
      cases hsettled'
      exact ⟨hinOrder, rfl, rfl, _, by rw [hrival], inserted_settled hmember hbetter hsettled⟩
  · intro d p position s hposition
    have hsettled := settled?_eq_moved (better sp d) hposition
    refine ⟨_, _, settle_eq hsettled s, moves_settled hposition hsettled, ?_, ?_⟩
    · exact isRanked_settled (better_asymm sp d) hposition hsettled
    · intro hdefined hothers
      obtain ⟨ys, place', hsettled', -, hys⟩ :=
        settled_bestFirst (better_isWeakOrder sp d) hposition hdefined hothers
      rw [hsettled] at hsettled'
      cases hsettled'
      exact hys

/-- The wheel chooses the middle one of three numbers as the rival of a larger one, and a small
number in front of larger ones moves to the end. -/
theorem migrateOne_inserts_probes :
    let sp := Probe.species
    let rules : EvolutionSettings := { migration := .steadyStateReverseFitness }
    let source : Source := ⟨fun _ => 4611686018427387904, 0, 4⟩
    let p : Population Probe := ⟨[0.75, 0.5, 0.25].map (Probe.ofValue · false), none, none⟩
    let child := Probe.ofValue 0.625 false
    let r := migrateOne sp rules child (p, { source })
    let unsettled : Population Probe :=
      ⟨[0.125, 0.75, 0.5].map (Probe.ofValue · false), none, none⟩
    (p.InOrder sp rules.direction 3 ∧ r.1 = .ok (some 1) ∧ r.2.1.InOrder sp rules.direction 3 ∧
      ∃ target, Inserted (better sp rules.direction) child target 1 p.members r.2.1.members) ∧
    Ranking.isRanked (better sp .maximize) (unsettled.members.eraseIdx 0) = true ∧
      ∃ members place, settle sp .maximize 0 (unsettled, { source })
        = (.ok place, { unsettled with members }, { source }) ∧
        Moves unsettled.members members 0 place ∧
        Ranking.isRanked (better sp .maximize) members = true := by
  intro sp rules source p child r unsettled
  obtain ⟨hmigrates, hsettles⟩ := migrateOne_inserts sp rules
  have hp : p.InOrder sp rules.direction 3 := by
    refine ⟨rfl, by decide +kernel, ?_⟩
    rw [BestFirst]
    decide +kernel
  have hplace : r.1 = .ok (some 1) := by decide +kernel
  have hothers : Ranking.isRanked (better sp .maximize) (unsettled.members.eraseIdx 0) = true := by
    decide +kernel
  refine ⟨⟨hp, hplace, ?_⟩, hothers, ?_⟩
  · have h := hmigrates 3 p (by decide) hp child { source }
    rcases hrun : migrateOne sp rules child (p, { source }) with ⟨outcome, q, t⟩
    have hr : r = (outcome, q, t) := hrun
    rw [hr] at hplace ⊢
    obtain rfl : outcome = .ok (some 1) := hplace
    rw [hrun] at h
    obtain ⟨hq, -, -, target, -, hinserted⟩ := h
    exact ⟨hq, target, hinserted⟩
  · obtain ⟨members, place, hsettle, hmoves, hranked, -⟩ :=
      hsettles .maximize unsettled 0 { source } (by decide)
    exact ⟨members, place, hsettle, hmoves, hranked hothers⟩

end Breeding

end FuzzyForest
