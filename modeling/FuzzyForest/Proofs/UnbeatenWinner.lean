/-
Whether the winner is unbeaten.

A winner is unbeaten if no member is strictly better.  A population that is in order has such a
winner, and so has one that is sorted with an unbeaten member in front.  An undefined fitness is
neither better nor worse than any other: nothing that rises passes it, and so a child that is better
than the winner may get stuck behind it.  The main results are

* `Ranking.isUnbeaten_settled_iff`: settling a child keeps the first entry unbeaten, unless the
  child is better than the first entry and does not get past all others on its way;
* `Breeding.winner_unbeaten`: the winner is unbeaten where every fitness is defined, and for any
  population, migration keeps it so exactly if no such child gets stuck;
* `Breeding.exists_winner_beaten`: undefined fitness lets both sorting and migration fail.
-/
import FuzzyForest.Proofs.SortedInsertion
import FuzzyForest.Proofs.Succession

namespace FuzzyForest

open Act (Triple)

variable {ι : Type}

namespace Ranking

variable {better : ι → ι → Bool}

/-! ### First entries -/

/-- There is a first entry, and no entry is better. -/
def IsUnbeaten (better : ι → ι → Bool) (xs : List ι) : Prop :=
  ∃ x ∈ xs.head?, ∀ y ∈ xs, better y x = false

section

variable (hasymm : ∀ x y, better x y = true → better y x = false)
  (htrans : ∀ x y z, better x y = true → better y z = true → better x z = true)

include hasymm

lemma not_better_self (x : ι) : better x x = false := by
  by_contra h
  simp [hasymm x x (eq_true_of_ne_false h)] at h

lemma BestFirst.isUnbeaten {xs : List ι} (h : BestFirst better xs) (hne : xs ≠ []) :
    IsUnbeaten better xs := by
  obtain ⟨x, xs, rfl⟩ := List.exists_cons_of_ne_nil hne
  refine ⟨x, rfl, ?_⟩
  simp only [List.forall_mem_cons]
  exact ⟨not_better_self hasymm x, (List.pairwise_cons.mp h).1⟩

omit hasymm

include htrans

/-- Sorting keeps an unbeaten entry in front. -/
lemma IsUnbeaten.sorted {xs : List ι} (h : IsUnbeaten better xs) :
    IsUnbeaten better (sorted better xs) := by
  obtain ⟨x, hx, hbest⟩ := h
  have hperm := sorted_perm better xs
  refine ⟨x, ?_, fun y hy => hbest y (hperm.mem_iff.mp hy)⟩
  rcases leads_sorted htrans xs with hhead | ⟨x', hx', y, hy, hyx⟩
  · rwa [hhead]
  · obtain rfl : x' = x := Option.mem_unique hx' hx
    rw [hbest y (hperm.mem_iff.mp (List.mem_of_mem_head? hy))] at hyx
    cases hyx

omit htrans

/-! ### Getting to the front -/

/-- What is better than all entries before it rises to the front. -/
lemma risen_of_better {x : ι} {before : List ι} (h : ∀ y ∈ before, better x y = true)
    (after : List ι) : risen better x before after = ([], before.reverse ++ after) := by
  induction before generalizing after with
  | nil => simp [risen]
  | cons y before ih =>
    simp only [List.forall_mem_cons] at h
    simp [risen, h.1, ih h.2]

include htrans

/-- What is better than an unbeaten entry gets to the front exactly if it is better than all that
is before it: nothing behind is better, so that it does not sink again. -/
lemma moved_fst_eq_nil_iff {x w : ι} {before after : List ι} (hxw : better x w = true)
    (hw : ∀ y ∈ before.reverse ++ after, better y w = false) :
    (moved better x before after).1 = [] ↔ ∀ y ∈ before, better x y = true := by
  constructor
  · intro h
    exact better_of_risen x (sunk_eq_nil x h)
  · intro h
    rw [moved, risen_of_better h]
    dsimp only
    cases hafter : before.reverse ++ after with
    | nil => rfl
    | cons y rest =>
      rw [sunk, if_neg]
      intro hyx
      have hyw : better y w = false := hw y (by simp [hafter])
      rw [htrans y x w hyx hxw] at hyw
      cases hyw

omit htrans

/-- What moves among others and does not get to the front leaves the first of them there. -/
lemma head?_moved {x : ι} {before after : List ι} (hbefore : before ≠ [])
    (hmoved : (moved better x before after).1 ≠ []) :
    ((moved better x before after).1.reverse ++ x :: (moved better x before after).2).head?
      = before.reverse.head? := by
  have h : ((moved better x before after).1.reverse ++ (moved better x before after).2).head? = _ :=
    congrArg List.head? (moved_append x before after)
  rwa [List.head?_append_of_ne_nil _ (by simpa using hmoved),
    List.head?_append_of_ne_nil _ (by simpa using hbefore),
    ← List.head?_append_of_ne_nil _ (by simpa using hmoved)] at h

/-- All but what moves are where they were. -/
lemma mem_moved {x y : ι} {before after : List ι}
    (hy : y ∈ (moved better x before after).1.reverse ++ x :: (moved better x before after).2) :
    y = x ∨ y ∈ before.reverse ++ after := by
  rw [← moved_append x before after]
  simp only [List.mem_append, List.mem_cons] at hy ⊢
  tauto

include hasymm htrans

/-- A child that takes the place of a worse entry moves among the others.  If the first entry was
unbeaten before, the first one then is so exactly if the child, in case that it is better than the
old one, is better than all that it has to pass. -/
lemma isUnbeaten_moved_iff {child member w : ι} {before after : List ι}
    (hw : w ∈ (before.reverse ++ [member]).head?)
    (hbest : ∀ y ∈ before.reverse ++ after, better y w = false)
    (hbetter : better child member = true) :
    IsUnbeaten better ((moved better child before after).1.reverse
        ++ child :: (moved better child before after).2) ↔
      (better child w = true → ∀ y ∈ before, better child y = true) := by
  by_cases hchild : better child w = true
  · rw [← moved_fst_eq_nil_iff htrans hchild hbest]
    simp only [hchild, true_implies]
    constructor
    · rintro ⟨z, hz, hzbest⟩
      by_contra hmoved
      -- somebody stands before the child, and so its rival was not the first one
      have hbefore : before ≠ [] := by
        rintro rfl
        exact hmoved ((moved_fst_eq_nil_iff htrans hchild hbest).mpr (by simp))
      rw [List.head?_append_of_ne_nil _ (by simpa using hbefore), ← head?_moved hbefore hmoved]
        at hw
      obtain rfl : z = w := Option.mem_unique hz hw
      rw [hzbest child (by simp)] at hchild
      cases hchild
    · intro hnil
      refine ⟨child, by simp [hnil], fun y hy => ?_⟩
      rcases mem_moved hy with rfl | hy
      · exact not_better_self hasymm y
      · by_contra hyc
        have hyw := hbest y hy
        rw [htrans y child w (eq_true_of_ne_false hyc) hchild] at hyw
        cases hyw
  · have hbefore : before ≠ [] := by
      rintro rfl
      cases hw
      exact hchild hbetter
    rw [List.head?_append_of_ne_nil _ (by simpa using hbefore)] at hw
    have hmoved : (moved better child before after).1 ≠ [] := by
      intro hnil
      refine hchild (better_of_risen child (sunk_eq_nil child hnil) w ?_)
      exact List.mem_reverse.mp (List.mem_of_mem_head? hw)
    simp only [hchild, Bool.false_eq_true, false_implies, iff_true]
    refine ⟨w, by rwa [head?_moved hbefore hmoved], fun y hy => ?_⟩
    rcases mem_moved hy with rfl | hy
    · exact eq_false_of_ne_true hchild
    · exact hbest y hy

/-- **Settling a child in the place of a worse entry keeps the first entry unbeaten exactly if the
child, in case that it is better than the first entry, is better than all that it has to pass.** -/
theorem isUnbeaten_settled_iff {xs ys : List ι} {child member w : ι} {target place : ℕ}
    (hw : w ∈ xs.head?) (hbest : ∀ y ∈ xs, better y w = false)
    (hmember : xs[target]? = some member) (hbetter : better child member = true)
    (hsettled : settled? better (xs.set target child) target = some (ys, place)) :
    IsUnbeaten better ys ↔
      (better child w = true → ∀ y ∈ xs.take target, better child y = true) := by
  obtain ⟨hlt, rfl⟩ := List.getElem?_eq_some_iff.mp hmember
  rw [settled?_eq_moved better (by simpa using hlt), List.getElem_set_self,
    List.take_set_of_le (Nat.le_refl _), List.drop_set_of_lt (Nat.lt_add_one _)] at hsettled
  cases hsettled
  have hfirst : w ∈ ((xs.take target).reverse.reverse ++ [xs[target]]).head? := by
    rw [List.reverse_reverse, List.take_append_getElem, List.head?_take, if_neg (by simp)]
    exact hw
  have hothers : ∀ y ∈ (xs.take target).reverse.reverse ++ xs.drop (target + 1),
      better y w = false := by
    intro y hy
    rw [List.reverse_reverse, ← List.eraseIdx_eq_take_drop_succ] at hy
    exact hbest y (List.mem_of_mem_eraseIdx hy)
  simpa using isUnbeaten_moved_iff hasymm htrans hfirst hothers hbetter

end

end Ranking

namespace Breeding

open Population Ranking

variable {sp : Species ι} {rules : EvolutionSettings}

/-! ### Populations -/

/-- Whether a child can get past members is whether their fitness is defined, if it is better than
an unbeaten one. -/
lemma forall_better_iff {d : Direction} {child w : ι} (hchild : better sp d child w = true)
    {xs : List ι} (hbest : ∀ x ∈ xs, better sp d x w = false) :
    (∀ x ∈ xs, better sp d child x = true) ↔ ∀ x ∈ xs, (sp.fitness x).isNaN = false := by
  constructor
  · intro h x hx
    exact d.isNaN_of_isBetter_right (h x hx)
  · intro h x hx
    refine (d.isBetter_or_isBetter (h x hx) hchild).resolve_right fun hxw => ?_
    rw [show d.isBetter (sp.fitness x) (sp.fitness w) = false from hbest x hx] at hxw
    cases hxw

/-- A population is in order from the beginning if its founders have a defined fitness. -/
lemma inOrder_founders {d : Direction} {members : List ι}
    (hdefined : ∀ x ∈ members, (sp.fitness x).isNaN = false) :
    InOrder sp d members.length (ranked sp d ⟨members, none, none⟩) :=
  (orderly_ranked sp d ⟨members, none, none⟩).inOrder fun x hx =>
    hdefined x ((members_ranked_perm sp d _).mem_iff.mp hx)

/-- Children, each of which is offered with a source to draw from. -/
def offers (children : List (ι × Source)) : List (Call ι × Source) :=
  children.map fun c => (.migrateOne c.1, c.2)

lemma keeps_offers {n : ℕ} (children : List (ι × Source)) {st : Population ι × Session}
    (hst : InOrder sp rules.direction n st.1) :
    InOrder sp rules.direction n (after sp rules st (offers children)).1 := by
  induction children generalizing st with
  | nil => exact hst
  | cons c children ih =>
    have hkeeps : Keeps (InOrder sp rules.direction n) ((Call.migrateOne c.1).run sp rules) :=
      .bind (keeps_migrateOne c.1) fun _ => .pure _
    exact ih (Triple.state hkeeps hst)

/-- **The winner is unbeaten where fitness is defined, and else as long as no child gets stuck.**
Founders of defined fitness have an unbeaten winner, through any offers of any children.  A few
founders whose first one is unbeaten do, too, whatever the fitness of the others is.  In any
population the offer of a child keeps the winner unbeaten exactly if the child is not taken, or is
not better than the winner, or if the fitness of all members before its rival is defined. -/
theorem winner_unbeaten (sp : Species ι) (rules : EvolutionSettings) :
    (∀ members : List ι, 2 ≤ members.length →
      ((∀ x ∈ members, (sp.fitness x).isNaN = false) →
        ∃ p, ofMembers sp rules.direction members = .ok p ∧
          ∀ (children : List (ι × Source)) (s : Session), IsUnbeaten (better sp rules.direction)
            (after sp rules (p, s) (offers children)).1.members) ∧
      (members.length ≤ few → IsUnbeaten (better sp rules.direction) members →
        ∃ p, ofMembers sp rules.direction members = .ok p ∧
          IsUnbeaten (better sp rules.direction) p.members)) ∧
    ∀ (p : Population ι) (w child : ι) (s : Session), p.winner? = some w →
      (∀ x ∈ p.members, better sp rules.direction x w = false) →
      (IsUnbeaten (better sp rules.direction) (migrateOne sp rules child (p, s)).2.1.members ↔
        ∀ place target, (migrateOne sp rules child (p, s)).1 = .ok (some place) →
          (rival sp rules p s.source).1 = .ok target →
          better sp rules.direction child w = true →
          ∀ x ∈ p.members.take target, (sp.fitness x).isNaN = false) := by
  refine ⟨fun members hsize => ⟨fun hdefined => ?_, fun hfew hunbeaten => ?_⟩, ?_⟩
  · have hsortable : IsSortable sp ⟨members, none, none⟩ := .inr hdefined
    refine ⟨_, hsortable.ofMembers_eq hsize, fun children s => ?_⟩
    have hafter : InOrder sp rules.direction _
        (after sp rules (ranked sp rules.direction ⟨members, none, none⟩, s)
          (offers children)).1 := keeps_offers children (inOrder_founders hdefined)
    refine hafter.bestFirst.isUnbeaten (better_asymm sp _) (List.ne_nil_of_length_pos ?_)
    rw [hafter.size]
    omega
  · -- nobody gets in front of an unbeaten founder
    have hsortable : IsSortable sp ⟨members, none, none⟩ := .inl hfew
    refine ⟨_, hsortable.ofMembers_eq hsize, ?_⟩
    rw [hsortable.members_ranked]
    exact hunbeaten.sorted (better_trans sp _)
  · intro p w child s hw hbest
    have hp : 0 < p.members.length := by
      obtain ⟨rest, hrest⟩ := List.head?_eq_some_iff.mp hw
      simp [hrest]
    have hunbeaten : IsUnbeaten (better sp rules.direction) p.members := ⟨w, hw, hbest⟩
    have hends := offerEnds_migrateOne sp rules child hp s
    generalize migrateOne sp rules child (p, s) = r at hends ⊢
    cases hends with
    | dropped hguard hties t => simpa using hunbeaten
    | stalled hrival => simpa using hunbeaten
    | refused hrival hmember hworse => simpa using hunbeaten
    | @taken target place member members source hguard hrival hmember hbetter hsettled =>
      refine (isUnbeaten_settled_iff (better_asymm sp _) (better_trans sp _) hw hbest hmember
        hbetter hsettled).trans ?_
      have hfront : ∀ x ∈ p.members.take target, better sp rules.direction x w = false :=
        fun x hx => hbest x (List.mem_of_mem_take hx)
      constructor
      · intro hpasses _ target' _ htarget hchild
        obtain rfl : target = target' := by simpa [hrival] using htarget
        exact (forall_better_iff hchild hfront).mp (hpasses hchild)
      · intro hdefined hchild
        refine (forall_better_iff hchild hfront).mpr (hdefined place target rfl ?_ hchild)
        rw [hrival]

/-- A probe whose fitness is undefined. -/
def undefinedProbe : Probe := .ofValue (0.0 / 0.0) false

/-- Three numbers in order are offered a better one and an undefined one.  Between two numbers an
undefined one does no harm to the first of them, and a child that is worse than it settles. -/
theorem winner_unbeaten_undefined :
    let sp := Probe.species
    let rules : EvolutionSettings := {}
    let source : Source := ⟨fun n => n.toUInt64, 0, 4⟩
    let isUnbeaten := IsUnbeaten (better sp rules.direction)
    let founders := [0.25, 0.75, 0.5].map (Probe.ofValue · false)
    let founders' := [.ofValue 0.75 false, undefinedProbe, .ofValue 0.25 false]
    (∃ p, ofMembers sp rules.direction founders = .ok p ∧
      isUnbeaten (after sp rules (p, { source })
        (offers [(.ofValue 0.875 false, source), (undefinedProbe, source)])).1.members) ∧
    ∃ p, ofMembers sp rules.direction founders' = .ok p ∧ isUnbeaten p.members ∧
      (migrateOne sp rules (.ofValue 0.5 false) (p, { source })).1 = .ok (some 2) ∧
      isUnbeaten (migrateOne sp rules (.ofValue 0.5 false) (p, { source })).2.1.members := by
  intro sp rules source isUnbeaten founders founders'
  obtain ⟨hfounded, hmigrates⟩ := winner_unbeaten sp rules
  refine ⟨?_, ?_⟩
  · obtain ⟨p, hp, hunbeaten⟩ := (hfounded founders (by decide)).1 (by decide +kernel)
    exact ⟨p, hp, hunbeaten _ { source }⟩
  · obtain ⟨p, hp, hunbeaten⟩ := (hfounded founders' (by decide)).2 (by decide)
      ⟨.ofValue 0.75 false, rfl, by decide +kernel⟩
    obtain rfl : ranked sp rules.direction ⟨founders', none, none⟩ = p := Except.ok.inj hp
    refine ⟨_, rfl, hunbeaten, by decide +kernel, ?_⟩
    have hworse : better sp rules.direction (.ofValue 0.5 false) (.ofValue 0.75 false) = false := by
      decide +kernel
    refine (hmigrates _ (.ofValue 0.75 false) _ { source } (by decide +kernel)
      (by decide +kernel)).mpr fun place target _ _ hchild => ?_
    rw [hworse] at hchild
    cases hchild

/-- Behind an undefined fitness the best of three founders is left in the back, and so is a child
that is better than the winner. -/
theorem exists_winner_beaten :
    (¬∀ (members : List Probe) (p : Population Probe),
      ofMembers Probe.species .maximize members = .ok p →
      IsUnbeaten (better Probe.species .maximize) p.members) ∧
    ¬∀ (p : Population Probe) (child : Probe) (s : Session), 2 ≤ p.members.length →
      IsUnbeaten (better Probe.species .maximize) p.members →
      IsUnbeaten (better Probe.species .maximize)
        (migrateOne Probe.species {} child (p, s)).2.1.members := by
  have hbeaten : ∀ {members : List Probe}, members.head? = some (.ofValue 0.5 false) →
      .ofValue 0.75 false ∈ members →
      ¬IsUnbeaten (better Probe.species .maximize) members := by
    rintro members hfirst hmem ⟨w, hw, hbest⟩
    obtain rfl : Probe.ofValue 0.5 false = w := Option.mem_unique hfirst hw
    exact absurd (hbest _ hmem) (by decide +kernel)
  constructor
  · intro h
    refine hbeaten ?_ ?_ (h [.ofValue 0.5 false, undefinedProbe, .ofValue 0.75 false] _ rfl)
    · decide +kernel
    · decide +kernel
  · intro h
    let p : Population Probe :=
      ⟨[.ofValue 0.5 false, undefinedProbe, .ofValue 0.25 false], none, none⟩
    have hp : IsUnbeaten (better Probe.species .maximize) p.members :=
      ⟨_, rfl, by decide +kernel⟩
    refine hbeaten ?_ ?_ (h p (.ofValue 0.75 false) { source := ⟨fun n => n.toUInt64, 0, 4⟩ }
      (by decide) hp)
    · decide +kernel
    · decide +kernel

end Breeding

end FuzzyForest
