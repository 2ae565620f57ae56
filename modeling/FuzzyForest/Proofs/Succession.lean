/-
What a breeding step does to the members of a population.

Selection, recombination, mutation and evaluation leave the members alone.  Then each of two
offspring takes the place of one worse member at most, and mixing up keeps the better half.  In a
ranked population every rank is therefore held by a member that is not worse than the one before
it, and the first member never gives way to a worse one.
-/
import FuzzyForest.Proofs.PopulationOrder
import Mathlib.Data.List.Perm.Basic

namespace FuzzyForest

open Act (Triple)

variable {ι : Type}

/-! ### Heirs -/

namespace Ranking

variable {better : ι → ι → Bool} {Heir : ι → Prop} {n : Nat} {xs ys zs : List ι}

/-- At most `n` entries of a list have given way, each to a better heir, and the others are still
there. -/
def Succeeds (better : ι → ι → Bool) (Heir : ι → Prop) (n : Nat) (xs ys : List ι) : Prop :=
  ∃ (heirs : List (ι × ι)) (others : List ι), heirs.length ≤ n ∧
    (∀ h ∈ heirs, Heir h.1 ∧ better h.1 h.2 = true) ∧
    xs.Perm (heirs.map Prod.snd ++ others) ∧ ys.Perm (heirs.map Prod.fst ++ others)

lemma Succeeds.refl (xs : List ι) : Succeeds better Heir 0 xs xs :=
  ⟨[], xs, Nat.le_refl _, nofun, .refl _, .refl _⟩

lemma Succeeds.mono {m : Nat} (h : Succeeds better Heir n xs ys) (hle : n ≤ m) :
    Succeeds better Heir m xs ys := by
  obtain ⟨heirs, others, hlength, hrest⟩ := h
  exact ⟨heirs, others, hlength.trans hle, hrest⟩

section

variable (htrans : ∀ x y z, better x y = true → better y z = true → better x z = true)

include htrans

/-- One more entry gives way, which may be an heir itself. -/
lemma Succeeds.concat (h : Succeeds better Heir n xs ys) {old new : ι} {rest : List ι}
    (hys : ys.Perm (old :: rest)) (hzs : zs.Perm (new :: rest)) (hnew : Heir new)
    (hbetter : better new old = true) : Succeeds better Heir (n + 1) xs zs := by
  classical
  obtain ⟨heirs, others, hlength, hheirs, hxs, hys'⟩ := h
  have hperm : (old :: rest).Perm (heirs.map Prod.fst ++ others) := hys.symm.trans hys'
  rcases List.mem_append.mp (hperm.mem_iff.mp List.mem_cons_self) with hmem | hmem
  · -- the entry is an heir, and the new one is better than what it stands for, too
    obtain ⟨h, hh, rfl⟩ := List.mem_map.mp hmem
    obtain ⟨heirs', hheirs'⟩ : ∃ heirs', heirs.Perm (h :: heirs') :=
      ⟨_, List.perm_cons_erase hh⟩
    refine ⟨(new, h.2) :: heirs', others, ?_, ?_, ?_, ?_⟩
    · rw [List.length_cons, ← List.length_cons (a := h), ← hheirs'.length_eq]
      exact hlength.trans (Nat.le_succ n)
    · refine List.forall_mem_cons.mpr ⟨⟨hnew, htrans _ _ _ hbetter (hheirs h hh).2⟩, ?_⟩
      exact fun k hk => hheirs k (hheirs'.mem_iff.mpr (List.mem_cons_of_mem _ hk))
    · exact hxs.trans ((hheirs'.map Prod.snd).append_right others)
    · have hrest : rest.Perm (heirs'.map Prod.fst ++ others) :=
        (hperm.trans ((hheirs'.map Prod.fst).append_right others)).cons_inv
      exact hzs.trans (hrest.cons new)
  · obtain ⟨others', hothers'⟩ : ∃ others', others.Perm (old :: others') :=
      ⟨_, List.perm_cons_erase hmem⟩
    refine ⟨(new, old) :: heirs, others', Nat.succ_le_succ hlength,
      List.forall_mem_cons.mpr ⟨⟨hnew, hbetter⟩, hheirs⟩, ?_, ?_⟩
    · exact hxs.trans ((hothers'.append_left _).trans List.perm_middle)
    · have hrest : rest.Perm (heirs.map Prod.fst ++ others') :=
        (hperm.trans ((hothers'.append_left _).trans List.perm_middle)).cons_inv
      exact hzs.trans (hrest.cons new)

/-- There are not fewer entries than before that are not worse than a given one. -/
lemma Succeeds.countP_le (h : Succeeds better Heir n xs ys) (x : ι) :
    xs.countP (fun z => !better x z) ≤ ys.countP fun z => !better x z := by
  obtain ⟨heirs, others, -, hheirs, hxs, hys⟩ := h
  rw [hxs.countP_eq, hys.countP_eq, List.countP_append, List.countP_append, List.countP_map,
    List.countP_map]
  refine Nat.add_le_add_right (List.countP_mono_left fun h hh hworse => ?_) _
  -- what is better than an heir is better than the entry that it stands for
  simp only [Function.comp_apply, Bool.not_eq_true'] at hworse ⊢
  by_contra hbetter
  rw [htrans _ _ _ (eq_true_of_ne_false hbetter) (hheirs h hh).2] at hworse
  cases hworse

end

lemma BestFirst.not_better {S : ι → Prop} (horder : IsWeakOrder better S)
    (h : BestFirst better xs) {i j : Nat} (hle : i ≤ j) (hj : j < xs.length) :
    better xs[j] (xs[i]) = false := by
  rcases Nat.eq_or_lt_of_le hle with rfl | hlt
  · by_contra hself
    have hself := eq_true_of_ne_false hself
    rw [horder.asymm hself] at hself
    cases hself
  · exact List.pairwise_iff_getElem.mp h i j _ hj hlt

/-- **If some entries of a ranking have given way to better ones, each rank of the new ranking is
held by an entry that is not worse.** -/
theorem Succeeds.not_better {S : ι → Prop} (horder : IsWeakOrder better S)
    (htrans : ∀ x y z, better x y = true → better y z = true → better x z = true)
    (h : Succeeds better Heir n xs ys) (hxs : BestFirst better xs) (hys : BestFirst better ys)
    (hS : ∀ y ∈ ys, S y) {i : Nat} {x y : ι} (hx : xs[i]? = some x) (hy : ys[i]? = some y) :
    better x y = false := by
  by_contra hxy
  have hxy := eq_true_of_ne_false hxy
  obtain ⟨hi, rfl⟩ := List.getElem?_eq_some_iff.mp hx
  obtain ⟨hj, rfl⟩ := List.getElem?_eq_some_iff.mp hy
  -- the old entries up to the rank are not worse than the old one
  have hold : i + 1 ≤ xs.countP fun z => !better xs[i] z := by
    have hfront : (xs.take (i + 1)).countP (fun z => !better xs[i] z) = i + 1 := by
      rw [List.countP_eq_length.mpr, List.length_take_of_le hi]
      intro z hz
      obtain ⟨k, hk, rfl⟩ := List.mem_take_iff_getElem.mp hz
      rw [hxs.not_better horder (by omega) hi]
      rfl
    exact hfront ▸ (List.take_sublist _ _).countP_le
  -- the new entries from the rank on are worse than it
  have hnew : ys.countP (fun z => !better xs[i] z) ≤ i := by
    rw [← List.take_append_drop i ys, List.countP_append]
    have hback : (ys.drop i).countP (fun z => !better xs[i] z) = 0 := by
      refine List.countP_eq_zero.mpr fun z hz => ?_
      obtain ⟨k, hk, rfl⟩ := List.mem_drop_iff_getElem.mp hz
      rw [Nat.add_comm] at hk
      have hle := hys.not_better horder (Nat.le_add_right i k) hk
      rcases horder.split (hS _ (List.getElem_mem hk)) hxy with h | h
      · rw [h]
        exact Bool.false_ne_true
      · rw [hle] at h
        cases h
    rw [hback, Nat.add_zero]
    exact List.countP_le_length.trans (List.length_take_le i ys)
  have := h.countP_le htrans xs[i]
  omega

end Ranking

/-! ### Offering a child -/

/-- A child is offered to ranked members: it takes the place of one that it is better than, or
nothing happens. -/
inductive Offered (better : ι → ι → Bool) (offspring : Option ι) : List ι → List ι → Prop
  | refused (xs : List ι) : Offered better offspring xs xs
  | taken {xs ys : List ι} {child member : ι} {target place : Nat} (hchild : child ∈ offspring)
    (hmember : xs[target]? = some member) (hbetter : better child member = true)
    (hsettled : Ranking.settled? better (xs.set target child) target = some (ys, place)) :
    Offered better offspring xs ys

namespace Offered

variable {better : ι → ι → Bool} {offspring : Option ι} {xs ys : List ι}

/-- One member gives way to the child, or none. -/
lemma perm (h : Offered better offspring xs ys) : xs = ys ∨ ∃ child ∈ offspring, ∃ member others,
    xs.Perm (member :: others) ∧ ys.Perm (child :: others) ∧ better child member = true := by
  cases h with
  | refused => exact .inl rfl
  | @taken _ child member target place hchild hmember hbetter hsettled =>
    obtain ⟨hlt, rfl⟩ := List.getElem?_eq_some_iff.mp hmember
    obtain ⟨around, place', -, hsettled', hperm⟩ := Ranking.settled?_eq better
      (show target < (xs.set target child).length by rwa [List.length_set])
    rw [hsettled'] at hsettled
    cases hsettled
    refine .inr ⟨child, hchild, xs[target], xs.eraseIdx target, ?_, ?_, hbetter⟩
    · exact (List.getElem_cons_eraseIdx_perm hlt).symm
    · refine hperm.trans ?_
      rw [List.set_eq_take_cons_drop _ hlt, List.eraseIdx_eq_take_drop_succ]
      exact List.perm_middle

lemma mem (h : Offered better offspring xs ys) {y : ι} (hy : y ∈ ys) : y ∈ xs ∨ y ∈ offspring := by
  obtain rfl | ⟨child, hchild, member, others, hxs, hys, -⟩ := h.perm
  · exact .inl hy
  · rcases List.mem_cons.mp (hys.mem_iff.mp hy) with rfl | hy
    · exact .inr hchild
    · exact .inl (hxs.mem_iff.mpr (List.mem_cons_of_mem _ hy))

lemma length_eq (h : Offered better offspring xs ys) : ys.length = xs.length := by
  obtain rfl | ⟨child, -, member, others, hxs, hys, -⟩ := h.perm
  · rfl
  · rw [hxs.length_eq, hys.length_eq, List.length_cons, List.length_cons]

end Offered

namespace Population

variable {sp : Species ι} {d : Direction}

/-- Being better carries over. -/
lemma better_trans (sp : Species ι) (d : Direction) (x y z : ι) (hxy : better sp d x y = true)
    (hyz : better sp d y z = true) : better sp d x z = true :=
  d.isBetter_trans hxy hyz

/-- Both offspring are offered, one after the other. -/
def Migrated (sp : Species ι) (d : Direction) (p q : Population ι) : Prop :=
  ∃ xs, Offered (better sp d) p.son p.members xs ∧
    Offered (better sp d) p.daughter xs q.members

lemma Migrated.length_eq {p q : Population ι} (h : p.Migrated sp d q) :
    q.members.length = p.members.length := by
  obtain ⟨xs, hson, hdaughter⟩ := h
  rw [hdaughter.length_eq, hson.length_eq]

lemma Migrated.mem {p q : Population ι} (h : p.Migrated sp d q) {y : ι} (hy : y ∈ q.members) :
    y ∈ p.members ∨ y ∈ p.son ∨ y ∈ p.daughter := by
  obtain ⟨xs, hson, hdaughter⟩ := h
  rcases hdaughter.mem hy with hy | hy
  · exact (hson.mem hy).imp_right .inl
  · exact .inr (.inr hy)

lemma Migrated.leads {p q : Population ι} (h : p.Migrated sp d q) :
    Ranking.Leads (better sp d) p.members q.members := by
  have hoffered : ∀ {offspring : Option ι} {xs ys : List ι},
      Offered (better sp d) offspring xs ys → Ranking.Leads (better sp d) xs ys := by
    intro offspring xs ys h
    cases h with
    | refused => exact .refl _
    | taken _ hmember hbetter hsettled =>
      exact Ranking.leads_settled (better_trans sp d) hmember hbetter hsettled
  obtain ⟨xs, hson, hdaughter⟩ := h
  exact (hoffered hson).trans (better_trans sp d) (hoffered hdaughter)

/-- At most two members give way, each to a better child. -/
lemma Migrated.succeeds {p q : Population ι} (h : p.Migrated sp d q) :
    Ranking.Succeeds (better sp d) (fun x => x ∈ p.son ∨ x ∈ p.daughter) 2 p.members q.members := by
  have hoffered : ∀ {offspring : Option ι} {n : Nat} {xs ys : List ι},
      (∀ x ∈ offspring, x ∈ p.son ∨ x ∈ p.daughter) → Offered (better sp d) offspring xs ys →
      Ranking.Succeeds (better sp d) (fun x => x ∈ p.son ∨ x ∈ p.daughter) n p.members xs →
      Ranking.Succeeds (better sp d) (fun x => x ∈ p.son ∨ x ∈ p.daughter) (n + 1) p.members
        ys := by
    intro offspring n xs ys hheir h hn
    obtain rfl | ⟨child, hchild, member, others, hxs, hys, hbetter⟩ := h.perm
    · exact hn.mono (Nat.le_succ n)
    · exact hn.concat (better_trans sp d) hxs hys (hheir child hchild) hbetter
  obtain ⟨xs, hson, hdaughter⟩ := h
  exact hoffered (fun _ => .inr) hdaughter (hoffered (fun _ => .inl) hson (.refl _))

end Population

/-! ### A step in parts -/

namespace Breeding

open Population

variable {sp : Species ι} {rules : EvolutionSettings} {d : Direction}

/-- The part of a breeding step that makes the offspring. -/
def conceive (sp : Species ι) (rules : EvolutionSettings) (crossoverRate mutationRate : Float) :
    Breeding ι Unit := do
  let _ ← select sp rules
  recombine sp crossoverRate
  mutate sp mutationRate
  evaluateChildren sp

/-- The settings without mixing up. -/
def unshuffled (rules : EvolutionSettings) : EvolutionSettings := { rules with shuffle := false }

/-- Without mixing up a step makes offspring and offers it. -/
lemma step_unshuffled (sp : Species ι) (rules : EvolutionSettings)
    (crossoverRate mutationRate : Float) :
    step sp (unshuffled rules) crossoverRate mutationRate
      = conceive sp rules crossoverRate mutationRate >>= fun _ => migrate sp rules := by
  simp only [conceive, Act.bind_assoc]
  show _ = select sp rules >>= fun _ => recombine sp crossoverRate >>= fun _ =>
    mutate sp mutationRate >>= fun _ => evaluateChildren sp >>= fun _ => migrate sp rules
  conv_rhs => rw [← Act.bind_pure_unit (migrate sp rules)]
  rfl

section

variable {crossoverRate mutationRate : Float} {st mid : Population ι × Session}

lemma step_eq_unshuffled (sp : Species ι) (h : rules.shuffle = false)
    (crossoverRate mutationRate : Float) : step sp rules crossoverRate mutationRate
      = step sp (unshuffled rules) crossoverRate mutationRate := by
  rw [unshuffled, ← h]

/-- Mixing up comes last. -/
lemma step_of_ok (hshuffle : rules.shuffle = true)
    (h : step sp (unshuffled rules) crossoverRate mutationRate st = (.ok (), mid)) :
    step sp rules crossoverRate mutationRate st
      = ((shuffle sp rules.direction mid).1.map fun _ => (),
          (shuffle sp rules.direction mid).2) := by
  have hstep : step sp rules crossoverRate mutationRate
      = step sp (unshuffled rules) crossoverRate mutationRate >>= fun _ =>
        shuffle sp rules.direction >>= fun _ => pure () := by
    rw [step_unshuffled]
    simp only [step, conceive, Act.bind_assoc, if_pos hshuffle]
  rw [hstep, Act.bind_apply, h]
  show (shuffle sp rules.direction >>= fun _ => pure ()) mid = _
  rw [Act.bind_apply]
  rcases shuffle sp rules.direction mid with ⟨e | b, t⟩ <;> rfl

/-- A step that fails before is not mixed up. -/
lemma step_of_error {e : Error}
    (h : step sp (unshuffled rules) crossoverRate mutationRate st = (.error e, mid)) :
    step sp rules crossoverRate mutationRate st = (.error e, mid) := by
  have hstep : step sp rules crossoverRate mutationRate
      = step sp (unshuffled rules) crossoverRate mutationRate >>= fun _ =>
        if rules.shuffle then shuffle sp rules.direction >>= fun _ => pure () else pure () := by
    rw [step_unshuffled]
    simp only [step, conceive, Act.bind_assoc]
  rw [hstep, Act.bind_apply, h]

end

/-- Making offspring leaves the members alone. -/
lemma members_conceive (sp : Species ι) (rules : EvolutionSettings)
    (crossoverRate mutationRate : Float) (st : Population ι × Session) :
    (conceive sp rules crossoverRate mutationRate st).2.1.members = st.1.members := by
  have hI : IgnoresOffspring fun p : Population ι => p.members = st.1.members := fun _ _ _ h => h
  have hkeeps : Keeps (fun p => p.members = st.1.members)
      (conceive sp rules crossoverRate mutationRate) :=
    .bind (keeps_select hI) fun _ => .bind (keeps_recombine hI _) fun _ =>
      .bind (keeps_mutate hI _) fun _ => keeps_evaluateChildren hI
  exact Triple.state (R := fun u : Population ι × Session => u.1.members = st.1.members) hkeeps rfl

/-- A child is offered to the members, also where that fails. -/
lemma triple_offer (offspring : Option ι) (p : Population ι) :
    Triple (fun st => st.1 = p) (offer sp rules offspring)
      (fun _ st => Offered (better sp rules.direction) offspring p.members st.1.members)
      fun _ st => Offered (better sp rules.direction) offspring p.members st.1.members := by
  have hrefused : ∀ {α : Type} {m : Breeding ι α}, Keeps (· = p) m → Triple (fun st => st.1 = p) m
      (fun _ st => Offered (better sp rules.direction) offspring p.members st.1.members)
      fun _ st => Offered (better sp rules.direction) offspring p.members st.1.members :=
    triple_of_keeps (I := fun q =>
      Offered (better sp rules.direction) offspring p.members q.members)
      (.refused _)
  cases offspring with
  | none => exact hrefused (.pure _)
  | some child =>
    refine Triple.bind (R := fun _ st =>
      Offered (better sp rules.direction) (some child) p.members st.1.members) ?_
      fun _ => Triple.pure fun _ h => h
    refine fun st hst => triple_population_bind (I := (· = p)) (fun q hq => ?_) st hst
    subst hq
    split
    · exact hrefused (.bind (.aside _) fun _ => .pure _)
    · refine Triple.bind (R := fun _ st => st.1 = q) ?_ fun target => ?_
      · refine Triple.mono (Keeps.aside (I := (· = q)) _) (fun _ h => h) (fun _ _ h => h) ?_
        rintro _ st rfl
        exact .refused _
      · split
        · exact hrefused (.fail _)
        · rename_i member hmember
          split
          · rename_i hbetter
            obtain ⟨hlt, -⟩ := List.getElem?_eq_some_iff.mp hmember
            obtain ⟨around, place, -, hsettled, -⟩ := Ranking.settled?_eq
              (better sp rules.direction)
              (show target < (q.members.set target child).length by rwa [List.length_set])
            rintro ⟨p, s⟩ rfl
            simp only [settle, modify, population, Act.bind_apply, hsettled]
            exact .taken rfl hmember hbetter hsettled
          · exact hrefused (.pure _)

lemma triple_migrate (p : Population ι) :
    Triple (fun st => st.1 = p) (migrate sp rules)
      (fun _ st => p.Migrated sp rules.direction st.1)
      fun _ st => p.Migrated sp rules.direction st.1 := by
  refine fun st hst => triple_population_bind (I := (· = p)) (fun q hq => ?_) st hst
  subst hq
  refine Triple.bind (R := fun _ st => st.1 = { q with son := none, daughter := none }) ?_
    fun _ => ?_
  · refine triple_modify fun p s hp => ?_
    cases hp
    rfl
  · refine Triple.bind (R := fun _ st =>
      Offered (better sp rules.direction) q.son q.members st.1.members) ?_ fun _ => ?_
    · exact (triple_offer q.son _).mono (fun _ h => h) (fun _ _ h => h)
        fun _ st h => ⟨_, h, .refused _⟩
    · intro st hson
      exact (triple_offer q.daughter st.1).mono (fun _ h => h) (fun _ st h => ⟨_, hson, h⟩)
        (fun _ st h => ⟨_, hson, h⟩) st rfl

/-- **Without mixing up, a step leaves the members as they are, or offers the children that it has
made to them.** -/
theorem step_cases (sp : Species ι) (rules : EvolutionSettings)
    (crossoverRate mutationRate : Float) (st : Population ι × Session) :
    (step sp (unshuffled rules) crossoverRate mutationRate st).2.1.members = st.1.members ∨
      ∃ conceived, conceive sp rules crossoverRate mutationRate st = (.ok (), conceived) ∧
        conceived.1.members = st.1.members ∧ conceived.1.Migrated sp rules.direction
          (step sp (unshuffled rules) crossoverRate mutationRate st).2.1 := by
  have hmembers := members_conceive sp rules crossoverRate mutationRate st
  rw [step_unshuffled, Act.bind_apply]
  rcases h : conceive sp rules crossoverRate mutationRate st with ⟨e | ⟨⟩, conceived⟩ <;>
    rw [h] at hmembers
  · exact .inl hmembers
  · exact .inr ⟨conceived, rfl, hmembers, Triple.state
      (R := fun u : Population ι × Session => conceived.1.Migrated sp rules.direction u.1)
      (triple_migrate conceived.1) rfl⟩

/-- A step leaves what it has bred as it is, or it sorts other individuals in behind the better half
of it. -/
lemma population_step (sp : Species ι) (rules : EvolutionSettings)
    (crossoverRate mutationRate : Float) (st : Population ι × Session) :
    let bred := (step sp (unshuffled rules) crossoverRate mutationRate st).2.1
    let next := (step sp rules crossoverRate mutationRate st).2.1
    next = bred ∨
      rules.shuffle = true ∧ ∃ fresh, next = ranked sp rules.direction (bred.refreshed fresh) := by
  intro bred next
  by_cases hshuffle : rules.shuffle = true
  · rcases hbred : step sp (unshuffled rules) crossoverRate mutationRate st with ⟨e | ⟨⟩, mid⟩
    · exact .inl (by simp only [next, bred, hbred, step_of_error hbred])
    · simp only [next, bred, hbred, step_of_ok hshuffle hbred]
      exact (shuffled_shuffle sp rules.direction mid).population_cases.imp_right
        fun ⟨fresh, h⟩ => ⟨hshuffle, fresh, h⟩
  · refine .inl ?_
    simp only [next, bred, step_eq_unshuffled sp (eq_false_of_ne_true hshuffle)]

/-- A step keeps the number of members. -/
lemma length_step (sp : Species ι) (rules : EvolutionSettings) (crossoverRate mutationRate : Float)
    (st : Population ι × Session) :
    (step sp rules crossoverRate mutationRate st).2.1.members.length = st.1.members.length := by
  have hbred : (step sp (unshuffled rules) crossoverRate mutationRate st).2.1.members.length
      = st.1.members.length := by
    rcases step_cases sp rules crossoverRate mutationRate st with
      h | ⟨conceived, -, hmembers, hmigrated⟩
    · rw [h]
    · rw [hmigrated.length_eq, hmembers]
  by_cases hshuffle : rules.shuffle = true
  · rcases hrun : step sp (unshuffled rules) crossoverRate mutationRate st with ⟨e | ⟨⟩, mid⟩ <;>
      rw [hrun] at hbred
    · rw [step_of_error hrun, hbred]
    · rw [step_of_ok hshuffle hrun, ← hbred]
      exact (shuffled_shuffle sp rules.direction mid).length_eq
  · rw [step_eq_unshuffled sp (eq_false_of_ne_true hshuffle), hbred]

/-- Where it is settled how they are sorted, other individuals behind the better half do not
displace the first member unless one of them is better. -/
lemma leads_ranked_refreshed {p : Population ι} {fresh : List ι} (h : 2 ≤ p.members.length)
    (hsortable : (ranked sp d (p.refreshed fresh)).IsSortable sp) :
    Ranking.Leads (better sp d) p.members (ranked sp d (p.refreshed fresh)).members := by
  rw [(isSortable_ranked_iff.mp hsortable).members_ranked]
  exact Ranking.leads_sorted_half (better_trans sp d) h fresh

/-- A step keeps the first member unless a better one takes its place, if it is settled how the
members are sorted. -/
lemma leads_step (sp : Species ι) (rules : EvolutionSettings) (crossoverRate mutationRate : Float)
    {st : Population ι × Session} (h : 2 ≤ st.1.members.length) :
    let next := (step sp rules crossoverRate mutationRate st).2.1
    next.IsSortable sp → Ranking.Leads (better sp rules.direction) st.1.members next.members := by
  intro next hsortable
  have hbred : (step sp (unshuffled rules) crossoverRate mutationRate st).2.1.members.length
      = st.1.members.length := length_step sp (unshuffled rules) crossoverRate mutationRate st
  have hleads : Ranking.Leads (better sp rules.direction) st.1.members
      (step sp (unshuffled rules) crossoverRate mutationRate st).2.1.members := by
    rcases step_cases sp rules crossoverRate mutationRate st with
      h | ⟨conceived, -, hmembers, hmigrated⟩
    · exact .inl (congrArg List.head? h)
    · rw [← hmembers]
      exact hmigrated.leads
  refine hleads.trans (better_trans sp _) ?_
  rcases population_step sp rules crossoverRate mutationRate st with hnext | ⟨-, fresh, hnext⟩
  · exact .inl (congrArg (fun p => p.members.head?) hnext)
  · rw [show next = _ from hnext] at hsortable ⊢
    exact leads_ranked_refreshed (hbred ▸ h) hsortable

/-- Without mixing up a step leaves the population in order. -/
lemma keeps_step_unshuffled {n : Nat} (crossoverRate mutationRate : Float) :
    Keeps (InOrder sp rules.direction n)
      (step sp (unshuffled rules) crossoverRate mutationRate) := by
  have hI : IgnoresOffspring (InOrder sp rules.direction n) := InOrder.ignoresOffspring
  rw [step_unshuffled]
  exact .bind (.bind (keeps_select hI) fun _ => .bind (keeps_recombine hI _) fun _ =>
    .bind (keeps_mutate hI _) fun _ => keeps_evaluateChildren hI) fun _ => keeps_migrate

/-- Where the first member is kept or gives way to a better one, the best fitness does not get
worse. -/
lemma not_better_bestFitness {p q : Population ι}
    (h : Ranking.Leads (better sp d) p.members q.members) :
    d.isBetter (p.bestFitness sp) (q.bestFitness sp) = false := by
  rw [bestFitness, bestFitness]
  rcases h with h | ⟨x, hx, y, hy, hbetter⟩
  · rw [h]
    by_contra hself
    have hself := eq_true_of_ne_false hself
    rw [d.isBetter_asymm hself] at hself
    cases hself
  · rw [hx, hy]
    exact d.isBetter_asymm hbetter

/-- **A step never loses the better ones.**  Without mixing up each rank is held by a member that
is not worse than the one before, and at most two members have given way, each to a better child.
Mixing up keeps the better half of what has been bred, and the best fitness does not get worse where
there are few members or every fitness is a number afterwards.  All this holds where the step fails,
too. -/
theorem step_keeps_ranks (sp : Species ι) (rules : EvolutionSettings) {n : Nat} {p : Population ι}
    (hp : p.InOrder sp rules.direction n) (s : Session) (crossoverRate mutationRate : Float) :
    let conceived := (conceive sp rules crossoverRate mutationRate (p, s)).2.1
    let bred := (step sp (unshuffled rules) crossoverRate mutationRate (p, s)).2.1
    let next := (step sp rules crossoverRate mutationRate (p, s)).2.1
    (rules.shuffle = false →
      next.members.length = n ∧
      (∀ (i : Nat) x y, p.members[i]? = some x → next.members[i]? = some y →
        better sp rules.direction x y = false) ∧
      Ranking.Succeeds (better sp rules.direction)
        (fun x => x ∈ conceived.son ∨ x ∈ conceived.daughter) 2 p.members next.members) ∧
    (rules.shuffle = true →
      bred.InOrder sp rules.direction n ∧
      (∃ others, next.members.Perm (bred.members.take (n / 2) ++ others)) ∧
      (2 ≤ n → next.IsSortable sp →
        rules.direction.isBetter (p.bestFitness sp) (next.bestFitness sp) = false)) := by
  intro conceived bred next
  have hbred : bred.InOrder sp rules.direction n :=
    Triple.state (R := fun u : Population ι × Session => u.1.InOrder sp rules.direction n)
      (keeps_step_unshuffled crossoverRate mutationRate) hp
  have hcases := step_cases sp rules crossoverRate mutationRate (p, s)
  have hnext := population_step sp rules crossoverRate mutationRate (p, s)
  refine ⟨fun hshuffle => ?_, fun _ => ⟨hbred, ?_, fun hn hsortable => ?_⟩⟩
  · have hnext : next.members = bred.members :=
      congrArg Population.members (hnext.resolve_right fun h => by rw [hshuffle] at h; cases h.1)
    have hsucceeds : Ranking.Succeeds (better sp rules.direction)
        (fun x => x ∈ conceived.son ∨ x ∈ conceived.daughter) 2 p.members bred.members := by
      rcases hcases with h | ⟨st, hst, hmembers, hmigrated⟩
      · rw [show bred.members = p.members from h]
        exact .mono (.refl _) (Nat.zero_le 2)
      · have hconceived : st.1 = conceived := (congrArg (fun r => r.2.1) hst).symm
        rw [hconceived] at hmembers hmigrated
        rw [show p.members = conceived.members from hmembers.symm]
        exact hmigrated.succeeds
    rw [hnext]
    exact ⟨hbred.size, fun i x y hx hy => hsucceeds.not_better (better_isWeakOrder sp _)
      (better_trans sp _) hp.bestFirst hbred.bestFirst hbred.defined hx hy, hsucceeds⟩
  · rcases hnext with h | ⟨-, fresh, h⟩
    · exact ⟨bred.members.drop (n / 2), by
        rw [List.take_append_drop]
        exact .of_eq (congrArg Population.members h)⟩
    · refine ⟨fresh, ?_⟩
      rw [show next = _ from h, ← hbred.size]
      exact members_ranked_perm sp _ _
  · exact not_better_bestFitness
      (leads_step sp rules crossoverRate mutationRate (hp.size.symm ▸ hn) hsortable)

/-- Two of three numbers give way to better ones.  Of four equal numbers, one of which cannot be
evaluated, the last two are mixed up in vain, and the best fitness stays. -/
theorem step_keeps_ranks_probes :
    let sp := Probe.species
    let rules : EvolutionSettings := {}
    let members := [Probe.ofValue 0.75 false, Probe.ofValue 0.5 false, Probe.ofValue 0.25 false]
    let source : Source := ⟨fun n => (n * 6911686018427387904 + 1).toUInt64, 0, 4⟩
    let next := (step sp rules 0.5 1.0 (⟨members, none, none⟩, { source })).2.1
    let mixing : EvolutionSettings := { shuffle := true, selection := .elitary }
    let equals := [false, false, true, false].map (Probe.ofValue 0.5)
    let mixed := step sp mixing 0.0 0.0 (⟨equals, none, none⟩, { source })
    (InOrder sp rules.direction 3 ⟨members, none, none⟩ ∧
      (next.members.filter (· ∈ members)).length = 1 ∧
      ∀ (i : Nat) x y, members[i]? = some x → next.members[i]? = some y →
        better sp rules.direction x y = false) ∧
    InOrder sp mixing.direction 4 ⟨equals, none, none⟩ ∧ mixed.1.isOk = false ∧
      mixed.2.1.members ≠ equals ∧
      mixing.direction.isBetter 0.5 (mixed.2.1.bestFitness sp) = false := by
  intro sp rules members source next mixing equals mixed
  have hmembers : InOrder sp rules.direction 3 ⟨members, none, none⟩ := by
    refine ⟨rfl, by decide +kernel, ?_⟩
    rw [Ranking.BestFirst]
    decide +kernel
  have hequals : InOrder sp mixing.direction 4 ⟨equals, none, none⟩ := by
    refine ⟨rfl, by decide +kernel, ?_⟩
    rw [Ranking.BestFirst]
    decide +kernel
  obtain ⟨hranks, -⟩ := step_keeps_ranks sp rules hmembers { source } 0.5 1.0
  obtain ⟨-, -, hbest⟩ := (step_keeps_ranks sp mixing hequals { source } 0.0 0.0).2 rfl
  exact ⟨⟨hmembers, by decide +kernel, (hranks rfl).2.1⟩, hequals, by decide +kernel,
    by decide +kernel, hbest (by decide) (.inl (by decide +kernel))⟩

end Breeding

end FuzzyForest
