/-
Distinct parents.

A wheel stops at a member whatever the fitness of the members is: where weights are unbounded, have
no sum or a sum that is not positive, sectors share the wheel evenly, and there is always one.  The
second parent is looked for until it is another one than the first, and after ten spins the next
place around is taken.  The offspring are therefore copies of two members.

The main results are
* `Breeding.triple_select`: what selection leaves in the places of the offspring;
* `Breeding.parents_distinct`: the wheel, the parents and the selection of a population of two or
  more.
-/
import FuzzyForest.Population.Probe
import FuzzyForest.Proofs.ClosedSpecies

namespace FuzzyForest

open Act (Returns Triple)

variable {ι α : Type}

/-- What a computation yields whatever was reported before, it returns. -/
lemma Run.Yields.returns {m : Run α} {Q : α → Prop} (h : Run.Yields m Q) : Returns m Q := by
  intro s _
  have := h s.journal.discards s rfl
  rcases hm : m s with ⟨e | a, t⟩ <;> rw [hm] at this
  · exact this.1
  · exact this.1

namespace Breeding

open Population

/-- Two places of a population, and copies of the members there as its offspring. -/
inductive Selected (p : Population ι) : ℕ × ℕ → Population ι → Prop
  | copies {first second : ℕ} {son daughter : ι} (hson : p.members[first]? = some son)
    (hdaughter : p.members[second]? = some daughter) (hne : first ≠ second) :
    Selected p (first, second) { p with son := some son, daughter := some daughter }

section

variable {sp : Species ι} {rules : EvolutionSettings} {p : Population ι}

lemma returns_parents (hp : 2 ≤ p.members.length) :
    Returns (parents sp rules p) fun places =>
      places.1 < p.members.length ∧ places.2 < p.members.length ∧ places.1 ≠ places.2 :=
  (yields_parents hp).returns

/-- Selection makes the offspring, or it changes nothing for want of random words. -/
lemma triple_select (hp : 2 ≤ p.members.length) :
    Triple (fun st => st.1 = p) (select sp rules) (fun places st => Selected p places st.1)
      fun e st => e = .stalled ∧ st.1 = p := by
  rintro ⟨q, s⟩ rfl
  have hparents : Returns (parents sp rules q) _ := returns_parents hp
  simp only [select, population, aside, Act.within, Act.bind_apply]
  rcases hrun : parents sp rules q s with ⟨e | ⟨first, second⟩, t⟩
  · exact ⟨Triple.error hparents trivial hrun, rfl⟩
  · obtain ⟨hfirst, hsecond, hne⟩ := hparents.ok hrun
    have hson := List.getElem?_eq_getElem hfirst
    have hdaughter := List.getElem?_eq_getElem hsecond
    simp only [note, aside, Run.note, Act.modify, Act.within, hson, hdaughter]
    exact .copies hson hdaughter hne

end

/-- **Parents are two members.**  Whatever the fitness of two members or more is, a wheel stops at
one of them, the parents have two places, and the offspring are copies of the members there.  The
only failure is a source whose words are all passed over; to draw from an empty range would be
another one. -/
theorem parents_distinct (sp : Species ι) (rules : EvolutionSettings) {p : Population ι}
    (hp : 2 ≤ p.members.length) :
    (∀ d, Returns (p.spin sp d) (· < p.members.length)) ∧
    Returns (parents sp rules p) (fun places =>
      places.1 < p.members.length ∧ places.2 < p.members.length ∧ places.1 ≠ places.2) ∧
    Triple (fun st => st.1 = p) (select sp rules) (fun places st => Selected p places st.1)
      fun e st => e = .stalled ∧ st.1 = p := by
  refine ⟨fun d => ?_, returns_parents hp, triple_select hp⟩
  exact returns_spin sp d (by omega)

/-- An unbounded fitness takes the whole wheel from negative and undefined ones, and the next place
is that of the second parent. -/
theorem parents_distinct_probes :
    let sp := Probe.species
    let rules : EvolutionSettings := { selection := .roulette }
    let source : Source := ⟨fun _ => 4611686018427387904, 0, 4⟩
    let p : Population Probe :=
      ⟨[0.0 / 0.0, 1.0 / 0.0, -0.5, -1.0 / 0.0].map (Probe.ofValue · false), none, none⟩
    2 ≤ p.members.length ∧ (∀ d, Returns (p.spin sp d) (· < 4)) ∧
      (parents sp rules p { source }).1 = .ok (1, 2) ∧
      Selected p (1, 2) (select sp rules (p, { source })).2.1 := by
  intro sp rules source p
  have hp : 2 ≤ p.members.length := by decide
  obtain ⟨hspin, -, hselect⟩ := parents_distinct sp rules hp
  have hplaces : (select sp rules (p, { source })).1 = .ok (1, 2) := by decide +kernel
  refine ⟨hp, hspin, by decide +kernel, hselect.ok (s := (p, { source })) rfl ?_⟩
  exact Prod.ext hplaces rfl

end Breeding

end FuzzyForest
