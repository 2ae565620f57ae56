/-
Closed species.

A species is closed under a property of individuals if mutation and crossing keep it and whatever
has it can be evaluated.  A population of such individuals is bred without any failure but that of
an exhausted source, and that of a sort if there are many members: no place is looked for outside
of the population, and no breeding step is discarded.
-/
import FuzzyForest.Population.Breeding
import FuzzyForest.Proofs.Growth
import FuzzyForest.Proofs.PopulationOrder

namespace FuzzyForest

open Act (Returns Triple)

variable {ι α β : Type}

/-- The reports of discarded breeding steps. -/
def Journal.discards (j : Journal) : List Note :=
  j.filter fun n => match n with
    | .discarded .. => true
    | _ => false

/-! ### Computations in a session -/

/-- Whatever the session, a computation gives a result in `Q` or fails in `E`, and it reports no
discarded step. -/
def Run.YieldsUnless (E : Error → Prop) (m : Run α) (Q : α → Prop) : Prop :=
  ∀ reports, Triple (fun s => s.journal.discards = reports) m
    (fun a s => Q a ∧ s.journal.discards = reports)
    fun e s => E e ∧ s.journal.discards = reports

/-- Whatever the session, a computation gives a result in `Q` and reports no discarded step, unless
its source is exhausted. -/
def Run.Yields (m : Run α) (Q : α → Prop) : Prop := Run.YieldsUnless (· = .stalled) m Q

namespace Run.Yields

variable {Q : α → Prop}

lemma mono {Q' : α → Prop} {m : Run α} (h : Yields m Q) (hQ : ∀ a, Q a → Q' a) : Yields m Q' :=
  fun reports => (h reports).mono (fun _ h => h) (fun a _ h => ⟨hQ a h.1, h.2⟩) fun _ _ h => h

lemma pure {a : α} (h : Q a) : Yields (Pure.pure a : Run α) Q :=
  fun _ => Triple.pure fun _ hs => ⟨h, hs⟩

lemma bind {m : Run β} {f : β → Run α} {R : β → Prop} (hm : Yields m R)
    (hf : ∀ b, R b → Yields (f b) Q) : Yields (m >>= f) Q :=
  fun reports => Triple.bind (hm reports) fun b s hs => hf b hs.1 reports s hs.2

/-- A draw touches nothing but the source. -/
lemma draw {d : Draw α} (h : Returns d Q) : Yields (Run.draw d) Q :=
  fun _ => Triple.within fun _ hs => Triple.mono h (fun _ _ => trivial) (fun _ _ ha => ⟨ha, hs⟩)
    fun _ _ he => ⟨he, hs⟩

/-- A note that is no such report. -/
lemma note {n : Note} (h : Journal.discards [n] = []) : Yields (Run.note n) fun _ => True := by
  refine fun reports => Triple.modify fun s hs => ⟨trivial, ?_⟩
  rw [← hs, ← List.singleton_append, Journal.discards, List.filter_append, ← Journal.discards, h]
  rfl

end Run.Yields

/-! ### Closed species -/

/-- Mutation and crossing keep a property of individuals, and whatever has it can be evaluated. -/
structure Species.IsClosed (sp : Species ι) (Good : ι → Prop) : Prop where
  mutated : ∀ p x, Good x → Returns (sp.mutated p x) Good
  crossed : ∀ p a b, Good a → Good b → Run.Yields (sp.crossed p a b) fun r => Good r.1 ∧ Good r.2
  evaluate : ∀ x s, Good x → ∃ fitness y t, sp.evaluate (x, s) = (.ok fitness, y, t) ∧ Good y ∧
    t.journal.discards = s.journal.discards

/-- The failures that a population of `n` members of a closed species may meet with. -/
def Error.IsBreakdown (n : Nat) (e : Error) : Prop :=
  e = .stalled ∨ e = .unsortable ∧ Ranking.few < n

lemma Error.IsBreakdown.isEvaluationFailure {n : Nat} {e : Error} (h : e.IsBreakdown n) :
    e.isEvaluationFailure = false := by
  rcases h with rfl | ⟨rfl, -⟩ <;> rfl

/-- A population of `n` members, all of which have a property, as has the offspring. -/
structure Population.Consists (Good : ι → Prop) (n : Nat) (p : Population ι) : Prop where
  size : p.members.length = n
  members : ∀ x ∈ p.members, Good x
  son : ∀ x ∈ p.son, Good x
  daughter : ∀ x ∈ p.daughter, Good x

namespace Population.Consists

variable {Good : ι → Prop} {n : Nat} {p : Population ι}

lemma ofMembers {members : List ι} (hsize : members.length = n) (hmembers : ∀ x ∈ members, Good x) :
    Consists Good n ⟨members, none, none⟩ :=
  ⟨hsize, hmembers, by simp, by simp⟩

lemma getElem? (h : p.Consists Good n) {i : Nat} (hi : i < n) :
    ∃ x, p.members[i]? = some x ∧ Good x := by
  rw [← h.size] at hi
  exact ⟨p.members[i], List.getElem?_eq_getElem hi, h.members _ (List.getElem_mem hi)⟩

lemma withOffspring (h : p.Consists Good n) {son daughter : Option ι} (hson : ∀ x ∈ son, Good x)
    (hdaughter : ∀ x ∈ daughter, Good x) : Consists Good n { p with son, daughter } :=
  ⟨h.size, h.members, hson, hdaughter⟩

lemma withMembers (h : p.Consists Good n) {members : List ι} (hsize : members.length = n)
    (hmembers : ∀ x ∈ members, Good x) : Consists Good n { p with members } :=
  ⟨hsize, hmembers, h.son, h.daughter⟩

lemma ranked (h : p.Consists Good n) (sp : Species ι) (d : Direction) :
    (ranked sp d p).Consists Good n :=
  h.withMembers ((members_ranked_perm sp d p).length_eq.trans h.size)
    fun x hx => h.members x ((members_ranked_perm sp d p).mem_iff.mp hx)

/-- If the sort breaks off, there are many members. -/
lemma isBreakdown_of_checkSort (h : p.Consists Good n) {sp : Species ι} {d : Direction} {e : Error}
    (he : checkSort sp d p = .error e) : e.IsBreakdown n := by
  obtain ⟨rfl, hp⟩ := eq_unsortable_of_checkSort he
  exact .inr ⟨rfl, h.size ▸ Nat.not_le.mp fun hfew => hp (.inl hfew)⟩

end Population.Consists

/-- What mutation keeps of each individual it keeps of a list. -/
lemma Species.returns_mutatedAll {sp : Species ι} {Good : ι → Prop} {p : Float}
    (h : ∀ x, Good x → Returns (sp.mutated p x) Good) {xs : List ι} (hxs : ∀ x ∈ xs, Good x) :
    Returns (sp.mutatedAll p xs) fun ys => ys.length = xs.length ∧ ∀ y ∈ ys, Good y := by
  induction xs with
  | nil => exact .pure ⟨rfl, nofun⟩
  | cons x xs ih =>
    obtain ⟨hx, hxs⟩ := List.forall_mem_cons.mp hxs
    refine (h x hx).bind fun y hy => (ih hxs).bind fun ys hys => .pure ⟨?_, ?_⟩
    · rw [List.length_cons, hys.1, List.length_cons]
    · exact List.forall_mem_cons.mpr ⟨hy, hys.2⟩

namespace Species.IsClosed

variable {sp : Species ι} {Good : ι → Prop}

/-- Good individuals are evaluated without any failure, whatever the schedule. -/
lemma evaluated (h : sp.IsClosed Good) {xs ys : List ι} {s t : Session}
    {outcome : Except Error Unit} (hxs : ∀ x ∈ xs, Good x)
    (hys : sp.Evaluated xs s outcome ys t) :
    outcome = .ok () ∧ (∀ y ∈ ys, Good y) ∧ t.journal.discards = s.journal.discards := by
  have hone : ∀ x ∈ xs, ∀ u, ∃ fitness y v, sp.evaluate (x, u) = (.ok fitness, y, v) ∧ Good y ∧
      v.journal.discards = u.journal.discards := fun x hx u => h.evaluate x u (hxs x hx)
  refine ⟨?_, hys.forall_of_each hxs fun x u hx => ?_, ?_⟩
  · cases outcome with
    | ok => rfl
    | error e =>
      obtain ⟨x, hx, _, -, u, v, hfailed⟩ := hys.error e rfl
      obtain ⟨_, _, _, hok, -⟩ := hone x hx u
      rw [hok] at hfailed
      cases hfailed
  · obtain ⟨_, _, _, hok, hgood, -⟩ := h.evaluate x u hx
    rwa [hok]
  · have hsession := hys.session
    clear hys
    induction hsession with
    | refl => rfl
    | tail _ hstep ih =>
      obtain ⟨x, hx, rfl⟩ := hstep
      obtain ⟨_, _, _, hok, -, hreports⟩ := hone x hx _
      rw [hok]
      exact hreports.trans ih

lemma mutatedAll (h : sp.IsClosed Good) (p : Float) {xs : List ι} (hxs : ∀ x ∈ xs, Good x) :
    Returns (sp.mutatedAll p xs) fun ys => ys.length = xs.length ∧ ∀ y ∈ ys, Good y :=
  returns_mutatedAll (h.mutated p) hxs

end Species.IsClosed

/-! ### Wheels -/

/-- A wheel with a sector stops in one. -/
lemma Wheel.returns_spin (weights : List Float) (h : weights ≠ []) :
    Returns (Wheel.spin weights) (· < weights.length) := by
  -- equal sectors belong to the unbounded weights if there are any, else to all members
  have hsectors : ∀ sectors, Wheel.even? weights = some sectors →
      sectors ≠ [] ∧ ∀ i ∈ sectors, i < weights.length := by
    intro sectors hsectors
    rw [Wheel.even?] at hsectors
    split at hsectors
    · rename_i i rest hunbounded
      cases hsectors
      refine ⟨List.cons_ne_nil _ _, ?_⟩
      intro j hj
      rw [← hunbounded] at hj
      exact List.mem_range.mp (List.mem_filter.mp hj).1
    · dsimp only at hsectors
      split at hsectors
      · cases hsectors
      · cases hsectors
        refine ⟨?_, fun i hi => List.mem_range.mp hi⟩
        rwa [ne_eq, List.range_eq_nil, List.length_eq_zero_iff]
  rw [Wheel.spin]
  split
  · rename_i sectors heven
    obtain ⟨hne, hlt⟩ := hsectors sectors heven
    refine (Draw.returns_between (List.length_pos_iff.mpr hne)).bind fun k hk => ?_
    rw [List.getElem?_eq_getElem hk.2]
    exact .pure (hlt _ (List.getElem_mem hk.2))
  · exact Draw.returns_unit.bind fun u _ => .pure (Wheel.stop_lt u h)

/-- A wheel of a population stops at a member. -/
lemma Population.returns_spin (sp : Species ι) (d : Direction) {p : Population ι}
    (h : 0 < p.members.length) : Returns (p.spin sp d) (· < p.members.length) := by
  have hweights : (Wheel.weights d (p.members.map sp.fitness)).length = p.members.length := by
    rw [Wheel.length_weights, List.length_map]
  have hspin := Wheel.returns_spin (Wheel.weights d (p.members.map sp.fitness))
    (List.length_pos_iff.mp (by omega))
  rwa [hweights] at hspin

/-! ### Breeding steps -/

namespace Breeding

/-- From a population of `n` good members a computation leads to another one and gives a result in
`Q`, and it reports no discarded step, unless it breaks down. -/
def Yields (Good : ι → Prop) (n : Nat) (m : Breeding ι α) (Q : α → Prop) : Prop :=
  ∀ reports, Triple (fun st => st.1.Consists Good n ∧ st.2.journal.discards = reports) m
    (fun a st => Q a ∧ st.1.Consists Good n ∧ st.2.journal.discards = reports)
    fun e st => e.IsBreakdown n ∧ st.2.journal.discards = reports

namespace Yields

variable {Good : ι → Prop} {n : Nat} {Q : α → Prop}

lemma pure {a : α} (h : Q a) : Yields Good n (Pure.pure a) Q :=
  fun _ => Triple.pure fun _ hs => ⟨h, hs⟩

lemma mono {Q' : α → Prop} {m : Breeding ι α} (h : Yields Good n m Q) (hQ : ∀ a, Q a → Q' a) :
    Yields Good n m Q' :=
  fun reports => (h reports).mono (fun _ h => h) (fun a _ h => ⟨hQ a h.1, h.2⟩) fun _ _ h => h

lemma bind {m : Breeding ι β} {f : β → Breeding ι α} {R : β → Prop} (hm : Yields Good n m R)
    (hf : ∀ b, R b → Yields Good n (f b) Q) : Yields Good n (m >>= f) Q :=
  fun reports => Triple.bind (hm reports) fun b st hst => hf b hst.1 reports st hst.2

lemma ite {c : Prop} [Decidable c] {l m : Breeding ι α} (hl : c → Yields Good n l Q)
    (hm : ¬c → Yields Good n m Q) : Yields Good n (if c then l else m) Q := by
  split
  · exact hl ‹_›
  · exact hm ‹_›

lemma population : Yields Good n (Breeding.population (ι := ι)) (·.Consists Good n) :=
  fun _ _ h => ⟨h.1, h⟩

lemma modify {f : Population ι → Population ι}
    (h : ∀ p, p.Consists Good n → (f p).Consists Good n) :
    Yields Good n (Breeding.modify f) fun _ => True :=
  fun _ (p, _) hst => ⟨trivial, h p hst.1, hst.2⟩

lemma aside {m : Run α} (h : Run.Yields m Q) : Yields Good n (Breeding.aside m) Q :=
  fun reports => triple_aside fun _ s hs => by
    have := h reports s hs.2
    rcases hm : m s with ⟨e | a, t⟩ <;> rw [hm] at this
    · exact ⟨.inl this.1, this.2⟩
    · exact ⟨this.1, hs.1, this.2⟩

lemma draw {d : Draw α} (h : Returns d Q) : Yields Good n (Breeding.draw d) Q := aside (.draw h)

lemma note {note : Note} (h : Journal.discards [note] = []) :
    Yields Good n (Breeding.note note) fun _ => True := aside (.note h)

end Yields

section

variable {sp : Species ι} {Good : ι → Prop} {rules : EvolutionSettings} {n : Nat}

/-- A second place is found in the population, and it is not the first. -/
lemma returns_distinctWithin {spin : Draw Nat} {size : Nat} (hspin : Returns spin (· < size))
    (other tries : Nat) :
    Returns (distinctWithin spin other tries) fun place => ∀ i ∈ place, i < size ∧ i ≠ other := by
  induction tries with
  | zero => exact .pure nofun
  | succ tries ih =>
    refine hspin.bind fun i hi => .ite (fun hne => .pure ?_) fun _ => ih
    rintro j ⟨⟩
    exact ⟨hi, hne⟩

/-- The next place around is another one. -/
lemma next_ne {size other : Nat} (hsize : 2 ≤ size) (hother : other < size) :
    (other + 1) % size ≠ other := by
  rcases Nat.eq_or_lt_of_le (Nat.succ_le_of_lt hother) with hlast | hlt
  · rw [show other + 1 = size from hlast, Nat.mod_self]
    omega
  · rw [Nat.mod_eq_of_lt hlt]
    omega

lemma yields_distinct {spin : Draw Nat} {size : Nat} (hspin : Returns spin (· < size))
    (hsize : 2 ≤ size) {other : Nat} (hother : other < size) :
    Run.Yields (distinct spin size other) fun i => i < size ∧ i ≠ other := by
  refine (Run.Yields.draw (returns_distinctWithin hspin other spins)).bind fun place hplace => ?_
  cases place with
  | some i => exact .pure (hplace i rfl)
  | none =>
    refine (Run.Yields.note rfl).bind fun _ _ => .pure ⟨?_, next_ne hsize hother⟩
    exact Nat.mod_lt _ (by omega)

/-- The parents have two places in the population. -/
lemma yields_parents {p : Population ι} (hp : 2 ≤ p.members.length) :
    Run.Yields (parents sp rules p) fun places =>
      places.1 < p.members.length ∧ places.2 < p.members.length ∧ places.1 ≠ places.2 := by
  have hspin : Returns (p.spin sp rules.direction) (· < p.members.length) :=
    Population.returns_spin sp rules.direction (by omega)
  rw [parents]
  split
  · exact .pure ⟨by omega, by omega, Nat.zero_ne_one⟩
  · exact (Run.Yields.draw hspin).bind fun first hfirst =>
      (yields_distinct hspin hp hfirst).bind fun second ⟨hsecond, hne⟩ =>
        .pure ⟨hfirst, hsecond, hne.symm⟩
  · exact (yields_distinct hspin hp (by omega)).bind fun first ⟨hfirst, hne⟩ =>
      .pure ⟨hfirst, by omega, hne⟩

lemma yields_select (hn : 2 ≤ n) :
    Yields Good n (select sp rules) fun _ => True := by
  refine Yields.population.bind fun p hp => ?_
  refine (Yields.aside (yields_parents (hp.size.symm ▸ hn))).bind fun places hplaces => ?_
  rw [hp.size] at hplaces
  obtain ⟨hfirst, hsecond, -⟩ := hplaces
  obtain ⟨son, hson, hgoodSon⟩ := hp.getElem? hfirst
  obtain ⟨daughter, hdaughter, hgoodDaughter⟩ := hp.getElem? hsecond
  refine (Yields.note rfl).bind fun _ _ => ?_
  rw [hson, hdaughter]
  refine (Yields.modify fun q hq => hq.withOffspring ?_ ?_).bind fun _ _ => .pure trivial
  · rintro x ⟨⟩
    exact hgoodSon
  · rintro x ⟨⟩
    exact hgoodDaughter

variable (hsp : sp.IsClosed Good)

include hsp

lemma yields_recombine (rate : Float) :
    Yields Good n (recombine sp rate) fun _ => True := by
  refine Yields.population.bind fun p hp => ?_
  split
  · rename_i son daughter hson hdaughter
    refine (Yields.draw Draw.returns_unit).bind fun x _ => .ite (fun _ => ?_) fun _ => .pure trivial
    refine (Yields.note rfl).bind fun _ _ => ?_
    refine (Yields.aside (hsp.crossed rate son daughter (hp.son son hson)
      (hp.daughter daughter hdaughter))).bind fun r hr => ?_
    refine Yields.modify fun q hq => hq.withOffspring ?_ ?_
    · rintro x ⟨⟩
      exact hr.1
    · rintro x ⟨⟩
      exact hr.2
  · exact .pure trivial

lemma returns_mutatedChild (rate : Float) {child : Option ι} (hchild : ∀ x ∈ child, Good x) :
    Returns (mutatedChild sp rate child) fun child => ∀ x ∈ child, Good x := by
  cases child with
  | none => exact .pure nofun
  | some child =>
    refine (hsp.mutated rate child (hchild child rfl)).bind fun y hy => .pure ?_
    rintro x ⟨⟩
    exact hy

lemma yields_mutate (rate : Float) :
    Yields Good n (mutate sp rate) fun _ => True := by
  refine Yields.population.bind fun p hp => ?_
  refine (Yields.draw (returns_mutatedChild hsp rate hp.son)).bind fun son hson => ?_
  refine (Yields.draw (returns_mutatedChild hsp rate hp.daughter)).bind fun daughter hdaughter => ?_
  exact Yields.modify fun q hq => hq.withOffspring hson hdaughter

lemma yields_evaluatedChild {child : Option ι} (hchild : ∀ x ∈ child, Good x) :
    Run.Yields (evaluatedChild sp child) fun child => ∀ x ∈ child, Good x := by
  cases child with
  | none => exact .pure nofun
  | some child =>
    intro reports s hs
    obtain ⟨fitness, y, t, hevaluate, hy, ht⟩ := hsp.evaluate child s (hchild child rfl)
    simp only [evaluatedChild, hevaluate]
    refine ⟨?_, ht.trans hs⟩
    rintro x ⟨⟩
    exact hy

lemma yields_evaluateChildren :
    Yields Good n (evaluateChildren sp) fun _ => True := by
  refine Yields.population.bind fun p hp => ?_
  refine (Yields.modify fun q hq => hq.withOffspring nofun nofun).bind fun _ _ => ?_
  refine (Yields.aside (yields_evaluatedChild hsp hp.son)).bind fun son hson => ?_
  refine (Yields.aside (yields_evaluatedChild hsp hp.daughter)).bind fun daughter hdaughter => ?_
  exact Yields.modify fun q hq => hq.withOffspring hson hdaughter

omit hsp

lemma yields_settle (d : Direction) {position : Nat} (hposition : position < n) :
    Yields Good n (settle sp d position) fun _ => True := by
  refine Yields.population.bind fun p hp => ?_
  obtain ⟨around, place, -, hsettled, hperm⟩ :=
    Ranking.settled?_eq (Population.better sp d) (hp.size.symm ▸ hposition)
  rw [hsettled]
  refine (Yields.modify fun q hq => hq.withMembers ?_ fun x hx => ?_).bind fun _ _ => .pure trivial
  · rw [hperm.length_eq, hp.size]
  · exact hp.members x (hperm.mem_iff.mp hx)

lemma returns_rival {p : Population ι} (hp : 0 < p.members.length) :
    Returns (rival sp rules p) (· < p.members.length) := by
  rw [rival]
  split
  · refine .pure ?_
    rw [Population.size]
    omega
  · exact Population.returns_spin sp _ hp

lemma yields_migrateOne (hn : 2 ≤ n) {child : ι} (hchild : Good child) :
    Yields Good n (migrateOne sp rules child) fun _ => True := by
  refine Yields.population.bind fun p hp => ?_
  refine .ite (fun _ => (Yields.note rfl).bind fun _ _ => .pure trivial) fun _ => ?_
  refine (Yields.draw (returns_rival (by rw [hp.size]; omega))).bind fun target htarget => ?_
  rw [hp.size] at htarget
  obtain ⟨member, hmember, -⟩ := hp.getElem? htarget
  rw [hmember]
  refine .ite (fun _ => ?_) fun _ => .pure trivial
  refine (Yields.modify fun q hq => hq.withMembers ?_ fun x hx => ?_).bind fun _ _ =>
    (yields_settle rules.direction htarget).bind fun _ _ => .pure trivial
  · rw [List.length_set, hq.size]
  · rcases List.mem_or_eq_of_mem_set hx with hx | rfl
    · exact hq.members x hx
    · exact hchild

lemma yields_offer (hn : 2 ≤ n) {child : Option ι} (hchild : ∀ x ∈ child, Good x) :
    Yields Good n (offer sp rules child) fun _ => True := by
  cases child with
  | none => exact .pure trivial
  | some child => exact (yields_migrateOne hn (hchild child rfl)).bind fun _ _ => .pure trivial

lemma yields_migrate (hn : 2 ≤ n) :
    Yields Good n (migrate sp rules) fun _ => True := by
  refine Yields.population.bind fun p hp => ?_
  refine (Yields.modify fun q hq => hq.withOffspring nofun nofun).bind fun _ _ => ?_
  exact (yields_offer hn hp.son).bind fun _ _ => yields_offer hn hp.daughter

include hsp

lemma yields_mutants : Yields Good n (mutants sp) fun drawn => ∀ x ∈ drawn, Good x := by
  refine Yields.population.bind fun p hp => (Yields.note rfl).bind fun _ _ => ?_
  have hworse : ∀ x ∈ p.members.drop (p.size / 2), Good x := fun x hx =>
    hp.members x (List.mem_of_mem_drop hx)
  exact (Yields.draw (hsp.mutatedAll 1.0 hworse)).mono fun _ h => h.2

lemma yields_shuffle (d : Direction) : Yields Good n (shuffle sp d) fun _ => True := by
  intro reports st hst
  have hshuffled := shuffled_shuffle sp d st
  have hmutants := yields_mutants hsp reports st hst
  generalize shuffle sp d st = r at hshuffled
  cases hshuffled with
  | idle => exact ⟨trivial, hst⟩
  | undrawn h =>
    rw [h] at hmutants
    exact hmutants
  | @mixed drawn fresh outcome s t hdrawn hfresh =>
    rw [hdrawn] at hmutants
    obtain ⟨rfl, hgood, hreports⟩ := hsp.evaluated hmutants.1 hfresh
    have hmembers : (st.1.refreshed fresh).Consists Good n :=
      hst.1.withMembers ((length_refreshed hdrawn hfresh).trans hst.1.size) fun x hx =>
        (Population.mem_refreshed hx).elim (hst.1.members x) (hgood x)
    cases hsort : Population.checkSort sp d (st.1.refreshed fresh) with
    | error e => exact ⟨hmembers.isBreakdown_of_checkSort hsort, hreports.trans hmutants.2.2⟩
    | ok => exact ⟨trivial, hmembers.ranked sp d, hreports.trans hmutants.2.2⟩

/-- **A breeding step of a closed species fails only for want of random words or of an order.** -/
theorem yields_step (rules : EvolutionSettings) (hn : 2 ≤ n) (crossoverRate mutationRate : Float) :
    Yields Good n (step sp rules crossoverRate mutationRate)
      fun _ => True := by
  refine (yields_select hn).bind fun _ _ => (yields_recombine hsp crossoverRate).bind fun _ _ =>
    (yields_mutate hsp mutationRate).bind fun _ _ => (yields_evaluateChildren hsp).bind fun _ _ =>
    (yields_migrate hn).bind fun _ _ => .ite (fun _ => ?_) fun _ => .pure trivial
  exact (yields_shuffle hsp rules.direction).bind fun _ _ => .pure trivial

end

end Breeding

end FuzzyForest
