/-
What a forest has cached.

The instructions of a forest, its estimates, its error rates and its fitness are fields that nine
operations change, each some of them.  Whatever the operations and their order: as long as a
forest has a fitness, a fresh forest of the same instructions is given the same fitness, the same
estimates and the same error rates.  The rules of fuzzy forests do not depend on how many
instructions were run before, and the error rates may be any function of the estimates.
-/
import FuzzyForest.Forest.Dump
import FuzzyForest.Proofs.ComputedWinner
import FuzzyForest.Proofs.Exchange
import FuzzyForest.Proofs.RunsAlike

namespace FuzzyForest

open Code (IsForest)

namespace Forest

variable {ds : Dataset Float} {settings : ModelSettings}
  {rates : Dataset Float → Array Float → Nat → Option (Float × Float)}
  {f g : Forest Float} {s t : Session} {x : Float}

/-- **What evaluating a forest comes to depends on its instructions and its number of trees
alone.** -/
theorem evaluate_congr (hcode : g.code = f.code) (houtputs : g.outputs = f.outputs)
    (count count' : Nat) :
    let e := f.evaluate ⟨ds, settings, fuzzySteps, rates⟩ count
    let e' := g.evaluate ⟨ds, settings, fuzzySteps, rates⟩ count'
    e'.failure? = e.failure? ∧ e'.forest.estimates = e.forest.estimates ∧
      (e.failure? = none → e'.forest.p1 = e.forest.p1 ∧ e'.forest.p2 = e.forest.p2) := by
  have htrees : g.treeCodes = f.treeCodes := by rw [treeCodes_eq, treeCodes_eq, hcode]
  refine evaluate_alike ?_ houtputs count count'
  rw [htrees]
  exact List.forall₂_same.mpr fun tree _ => .refl tree

/-! ### Fresh forests -/

/-- The fitness that a forest has after an evaluation. -/
def Evaluation.fitness (ctx : Context Float) (e : Evaluation Float) : Float :=
  score ctx.settings.fitness ctx.settings.beta ctx.settings.maxInstructions e.forest.p1
    e.forest.p2 e.forest.code.length

lemma computeFitness_of_success {ctx : Context Float} {e : Evaluation Float}
    (he : evaluate ctx { f with fitness? := none } s.executed = e) (h : e.failure? = none) :
    ∃ t, computeFitness ctx (f, s)
      = (.ok (e.fitness ctx), { e.forest with fitness? := some (e.fitness ctx) }, t) := by
  simp only [computeFitness, refresh, he, h]
  exact ⟨_, rfl⟩

lemma success_of_computeFitness {ctx : Context Float} {e : Evaluation Float}
    (he : evaluate ctx { f with fitness? := none } s.executed = e)
    (h : computeFitness ctx (f, s) = (.ok x, g, t)) : e.failure? = none ∧
      x = e.fitness ctx ∧ g = { e.forest with fitness? := some (e.fitness ctx) } := by
  cases hfailure : e.failure? <;> simp only [computeFitness, refresh, he, hfailure] at h <;> cases h
  exact ⟨rfl, rfl, rfl⟩

lemma forest_of_refresh {ctx : Context Float} {r : Except Error Unit}
    (h : refresh ctx (f, s) = (r, g, t)) : g = (f.evaluate ctx s.executed).forest := by
  cases hfailure : (f.evaluate ctx s.executed).failure? <;>
    simp only [refresh, hfailure] at h <;> cases h <;> rfl

/-- A fresh forest of the same instructions is given a fitness, and the estimates and error rates
that the forest has. -/
def Confirms (ctx : Context Float) (f : Forest Float) (fitness : Float) : Prop :=
  ∀ s, ∃ g t, computeFitness ctx (ofCode ctx.dataset.records f.code, s) = (.ok fitness, g, t) ∧
    g.estimates = f.estimates ∧ g.p1 = f.p1 ∧ g.p2 = f.p2

/-! ### What stays coherent -/

/-- A forest of well-formed trees without aggregates, whose fitness is confirmed if it has one. -/
structure IsCoherent (ctx : Context Float) (f : Forest Float) : Prop where
  isForest : IsForest f.outputs f.code
  notAggregate : ∀ i ∈ f.code, i.isAggregate = false
  confirmed : ∀ fitness ∈ f.fitness?, Confirms ctx f fitness

namespace IsCoherent

variable {ctx : Context Float}

/-- Changed instructions have no fitness. -/
lemma of_none (hforest : IsForest f.outputs f.code)
    (hnotAggregate : ∀ i ∈ f.code, i.isAggregate = false) (hnone : f.fitness? = none) :
    IsCoherent ctx f :=
  ⟨hforest, hnotAggregate, by rw [hnone]; exact nofun⟩

/-- A forest that is built and passes its check. -/
lemma ofCode {records : Nat} {code : Code Float}
    (hvalid : (Forest.ofCode records code).validate = .ok ())
    (hnotAggregate : ∀ i ∈ (Forest.ofCode records code).code, i.isAggregate = false) :
    IsCoherent ctx (Forest.ofCode records code) := by
  obtain ⟨hlength, htrees⟩ := validate_eq_ok_iff.mp hvalid
  rw [treeCodes_eq] at hlength htrees
  refine of_none ?_ hnotAggregate rfl
  rw [← hlength]
  exact Code.isForest_of_pieces (isClosed_closed code) htrees

lemma mutated (h : IsCoherent ctx f) {p : Float} {source source' : Source}
    (hg : mutated ctx p f source = (.ok g, source')) : IsCoherent ctx g := by
  obtain ⟨hforest, houtputs, hnone, hmem⟩ := (returns_mutated ctx p h.isForest).ok hg
  exact of_none (houtputs ▸ hforest) (hmem _ heritable_notAggregate h.notAggregate) hnone

lemma crossed {a b c d : Forest Float} (ha : IsCoherent ctx a) (hb : IsCoherent ctx b) {p : Float}
    (h : crossed ctx p a b s = (.ok (c, d), t)) : IsCoherent ctx c ∧ IsCoherent ctx d := by
  have hnotAggregate : ∀ i, i ∈ c.code ∨ i ∈ d.code → i.isAggregate = false := by
    intro i hi
    rcases mem_of_crossed ha.isForest hb.isForest h hi with hi | hi | hi
    · exact ha.notAggregate i hi
    · exact hb.notAggregate i hi
    · simp only [Instruction.isSeparator, decide_eq_true_eq] at hi
      simp [Instruction.isAggregate, hi]
  rcases crossed_cases h with ⟨rfl, rfl⟩ | ⟨son, daughter, _, houtputs, hdraw, -, rfl, rfl⟩
  · exact ⟨ha, hb⟩
  · have htrees : CrossedTrees a.outputs a.code b.code (son, daughter) :=
      (returns_crossTrees _ p ha.isForest (houtputs ▸ hb.isForest)).ok hdraw
    obtain ⟨hson, hdaughter⟩ := htrees.isForest ha.notAggregate hb.notAggregate
    exact ⟨of_none hson (fun i hi => hnotAggregate i (.inl hi)) rfl,
      of_none (houtputs ▸ hdaughter) (fun i hi => hnotAggregate i (.inr hi)) rfl⟩

lemma compact (h : IsCoherent ctx f) : IsCoherent ctx f.compact :=
  of_none h.isForest.compact (fun i hi => h.notAggregate i (List.mem_filter.mp hi).1) rfl

lemma setWeights (h : IsCoherent ctx f) {ws : List Float} (hg : f.setWeights ws = .ok g) :
    IsCoherent ctx g := by
  obtain rfl := eq_of_setWeights hg
  have hopcodes := opcodes_reweighted f.code ws
  exact of_none (h.isForest.congr hopcodes)
    (Code.forall_congr hopcodes (P := fun op => decide (op = .processAll) = false) h.notAggregate)
    rfl

/-- The fitness after an evaluation is confirmed where the estimates and the error rates are kept. -/
lemma confirms (h : IsCoherent ⟨ds, settings, fuzzySteps, rates⟩ f) {e : Evaluation Float}
    {count : Nat} (he : f.evaluate ⟨ds, settings, fuzzySteps, rates⟩ count = e)
    (hsuccess : e.failure? = none) (hcode : g.code = f.code)
    (hestimates : g.estimates = e.forest.estimates) (hp1 : g.p1 = e.forest.p1)
    (hp2 : g.p2 = e.forest.p2) : Confirms ⟨ds, settings, fuzzySteps, rates⟩ g
      (e.fitness ⟨ds, settings, fuzzySteps, rates⟩) := by
  intro s
  rw [hcode, hestimates, hp1, hp2]
  let ctx : Context Float := ⟨ds, settings, fuzzySteps, rates⟩
  let fresh : Forest Float := { Forest.ofCode ds.records f.code with fitness? := none }
  let e' := fresh.evaluate ctx s.executed
  obtain ⟨hfreshCode, hfreshOutputs⟩ := ofCode_of_isForest h.isForest ds.records
  obtain ⟨hfailure', hestimates', hrates'⟩ :
      e'.failure? = e.failure? ∧ e'.forest.estimates = e.forest.estimates ∧
        (e.failure? = none → e'.forest.p1 = e.forest.p1 ∧ e'.forest.p2 = e.forest.p2) :=
    he ▸ evaluate_congr (f := f) (g := fresh) hfreshCode hfreshOutputs count s.executed
  obtain ⟨hp1', hp2'⟩ := hrates' hsuccess
  obtain ⟨t, hcompute⟩ := computeFitness_of_success
    (show evaluate ctx { Forest.ofCode ds.records f.code with fitness? := none } s.executed = e'
      from rfl) (hfailure'.trans hsuccess)
  have hlength : e'.forest.code.length = e.forest.code.length := by
    rw [(evaluate_code ctx fresh s.executed).1, ← he, (evaluate_code ctx f count).1]
    exact congrArg List.length hfreshCode
  have hfitness : e'.fitness ctx = e.fitness ctx := by
    rw [Evaluation.fitness, Evaluation.fitness, hp1', hp2', hlength]
  rw [hfitness] at hcompute
  exact ⟨_, t, hcompute, hestimates', hp1', hp2'⟩

/-- A fitness that is computed is confirmed, and one that cannot be computed is dropped. -/
lemma computed (h : IsCoherent ⟨ds, settings, fuzzySteps, rates⟩ f) {r : Except Error Float}
    (hg : computeFitness ⟨ds, settings, fuzzySteps, rates⟩ (f, s) = (r, g, t)) :
    IsCoherent ⟨ds, settings, fuzzySteps, rates⟩ g := by
  obtain ⟨hcode, houtputs⟩ := computeFitness_code hg
  have hforest : IsForest g.outputs g.code := by rw [hcode, houtputs]; exact h.isForest
  have hnotAggregate : ∀ i ∈ g.code, i.isAggregate = false := by rw [hcode]; exact h.notAggregate
  cases r with
  | error e => exact of_none hforest hnotAggregate (fitness?_of_error hg)
  | ok x =>
    refine ⟨hforest, hnotAggregate, ?_⟩
    obtain ⟨hsuccess, -, rfl⟩ := success_of_computeFitness rfl hg
    rintro _ ⟨⟩
    have hnone : IsCoherent ⟨ds, settings, fuzzySteps, rates⟩ { f with fitness? := none } :=
      of_none h.isForest h.notAggregate rfl
    exact hnone.confirms rfl hsuccess hcode rfl rfl rfl

/-- Another evaluation finds what was found before. -/
lemma refreshed (h : IsCoherent ⟨ds, settings, fuzzySteps, rates⟩ f) {r : Except Error Unit}
    (hg : refresh ⟨ds, settings, fuzzySteps, rates⟩ (f, s) = (r, g, t)) :
    IsCoherent ⟨ds, settings, fuzzySteps, rates⟩ g := by
  obtain rfl := forest_of_refresh hg
  obtain ⟨hcode, houtputs⟩ := evaluate_code ⟨ds, settings, fuzzySteps, rates⟩ f s.executed
  have hkept := (evaluate_forest ⟨ds, settings, fuzzySteps, rates⟩ f s.executed).2
  refine ⟨?_, ?_, fun x hx => ?_⟩
  · rw [hcode, houtputs]
    exact h.isForest
  · rw [hcode]
    exact h.notAggregate
  · -- a fresh forest can be evaluated, and so can this one; both are given the same fitness
    obtain ⟨_, _, hold, -⟩ := h.confirmed x (hkept ▸ hx) s
    obtain ⟨hfreshCode, hfreshOutputs⟩ := ofCode_of_isForest h.isForest ds.records
    have hsuccess : (f.evaluate ⟨ds, settings, fuzzySteps, rates⟩ s.executed).failure? = none :=
      (evaluate_congr hfreshCode.symm hfreshOutputs.symm _ _).1.trans
        (success_of_computeFitness rfl hold).1
    have hconfirms := h.confirms (g := (f.evaluate _ s.executed).forest) rfl hsuccess hcode rfl rfl
      rfl
    obtain ⟨_, _, hnew, -⟩ := hconfirms s
    rw [hcode, hold] at hnew
    cases hnew
    exact hconfirms

end IsCoherent

/-! ### Handled forests -/

/-- The ways to build a forest. -/
inductive Built (ctx : Context Float) : Forest Float → Prop
  | random {f : Forest Float} {source source' : Source}
    (h : random ctx source = (.ok f, source')) : Built ctx f
  | parse (text : String) : Built ctx (parse ctx.dataset.records text)
  | ofDump {text : String} {code : Code Float} (h : Code.ofDump text = .ok code) :
    Built ctx (ofCode ctx.dataset.records code)
  | ofCode (code : Code Float) : Built ctx (ofCode ctx.dataset.records code)

lemma Built.exists_code {ctx : Context Float} (h : Built ctx f) :
    ∃ code, f = Forest.ofCode ctx.dataset.records code := by
  cases h with
  | random h =>
    obtain ⟨code, _, -, h⟩ := Act.bind_eq_ok.mp h
    cases h
    exact ⟨code, rfl⟩
  | parse text => exact ⟨_, rfl⟩
  | @ofDump _ code _ => exact ⟨code, rfl⟩
  | ofCode code => exact ⟨code, rfl⟩

/-- The forests that come of well-formed ones without aggregates by whatever can be done to them.
A forest that an operation refuses to change stays what it is. -/
inductive Handled (ctx : Context Float) : Forest Float → Prop
  | built {f : Forest Float} (h : Built ctx f) (hvalid : f.validate = .ok ())
    (hnotAggregate : ∀ i ∈ f.code, i.isAggregate = false) : Handled ctx f
  | computed {f g : Forest Float} {r : Except Error Float} {s t : Session} (hf : Handled ctx f)
    (h : computeFitness ctx (f, s) = (r, g, t)) : Handled ctx g
  | refreshed {f g : Forest Float} {r : Except Error Unit} {s t : Session} (hf : Handled ctx f)
    (h : refresh ctx (f, s) = (r, g, t)) : Handled ctx g
  | mutated {f g : Forest Float} {p : Float} {source source' : Source} (hf : Handled ctx f)
    (h : mutated ctx p f source = (.ok g, source')) : Handled ctx g
  | son {a b son daughter : Forest Float} {p : Float} {s t : Session} (ha : Handled ctx a)
    (hb : Handled ctx b) (h : crossed ctx p a b s = (.ok (son, daughter), t)) : Handled ctx son
  | daughter {a b son daughter : Forest Float} {p : Float} {s t : Session} (ha : Handled ctx a)
    (hb : Handled ctx b) (h : crossed ctx p a b s = (.ok (son, daughter), t)) :
    Handled ctx daughter
  | compact {f : Forest Float} (hf : Handled ctx f) : Handled ctx f.compact
  | setWeights {f g : Forest Float} {ws : List Float} (hf : Handled ctx f)
    (h : f.setWeights ws = .ok g) : Handled ctx g

lemma Handled.isCoherent (h : Handled ⟨ds, settings, fuzzySteps, rates⟩ f) :
    IsCoherent ⟨ds, settings, fuzzySteps, rates⟩ f := by
  induction h with
  | built h hvalid hnotAggregate =>
    obtain ⟨code, rfl⟩ := h.exists_code
    exact .ofCode hvalid hnotAggregate
  | computed _ h ih => exact ih.computed h
  | refreshed _ h ih => exact ih.refreshed h
  | mutated _ h ih => exact ih.mutated h
  | son _ _ h iha ihb => exact (iha.crossed ihb h).1
  | daughter _ _ h iha ihb => exact (iha.crossed ihb h).2
  | compact _ ih => exact ih.compact
  | setWeights _ h ih => exact ih.setWeights h

/-- **A cached fitness is what a fresh forest of the same instructions is given**, and so are the
estimates and the error rates that stand beside it.  An evaluation that fails leaves the
instructions alone and no fitness behind. -/
theorem cached_fitness_is_fresh (ds : Dataset Float) (settings : ModelSettings)
    (rates : Dataset Float → Array Float → Nat → Option (Float × Float)) :
    let ctx : Context Float := ⟨ds, settings, fuzzySteps, rates⟩
    (∀ f, Handled ctx f → f.isEvaluated = true → ∀ s, ∃ g t,
      computeFitness ctx (ofCode ds.records f.code, s) = (.ok f.fitness, g, t) ∧
        g.estimates = f.estimates ∧ g.p1 = f.p1 ∧ g.p2 = f.p2) ∧
    ∀ f s e g t, computeFitness ctx (f, s) = (.error e, g, t) →
      g.code = f.code ∧ g.isEvaluated = false := by
  intro ctx
  refine ⟨fun f hf hevaluated s => ?_, fun f s e g t h => ?_⟩
  · obtain ⟨x, hx⟩ := Option.isSome_iff_exists.mp hevaluated
    have hfitness : f.fitness = x := by rw [Forest.fitness, hx, Option.getD_some]
    rw [hfitness]
    exact hf.isCoherent.confirmed x hx s
  · rw [isEvaluated, fitness?_of_error h]
    exact ⟨(computeFitness_code h).1, rfl⟩

/-- A forest of two outputs that is mutated, evaluated and evaluated once more. -/
theorem cached_fitness_is_fresh_crossReading :
    let ctx : Context Float := .fuzzy crossDataset {}
    let source : Source := ⟨fun n => ((n * 5 + 2) % 9 * 576460752303423488).toUInt64, 0, 4⟩
    ∃ f u x g s h t, mutated ctx 0.5 crossReading source = (.ok f, u) ∧
      computeFitness ctx (f, { source }) = (.ok x, g, s) ∧ refresh ctx (g, s) = (.ok (), h, t) ∧
      h.isEvaluated = true ∧ ∃ fresh v,
        computeFitness ctx (ofCode 3 h.code, { source, executed := 7 }) = (.ok h.fitness, fresh, v) ∧
        fresh.estimates = h.estimates := by
  intro ctx source
  have hok : (match (mutated ctx 0.5 crossReading source).1 with
      | .ok f => ((do let _ ← computeFitness ctx; refresh ctx : Work Unit) (f, { source })).1.isOk
      | .error _ => false) = true := by decide +kernel
  rcases hf : mutated ctx 0.5 crossReading source with ⟨e | f, u⟩ <;> rw [hf] at hok
  · cases hok
  · rcases hrun : (do let _ ← computeFitness ctx; refresh ctx : Work Unit) (f, { source })
      with ⟨e | ⟨⟩, h, t⟩
    · simp only [hrun] at hok
      cases hok
    · obtain ⟨x, ⟨g, s⟩, hg, hh⟩ := Act.bind_eq_ok.mp hrun
      have hbuilt : Handled ctx crossReading :=
        .built (.ofCode [.pastOutput 1 1 0.5, .separator, .input 0 0.5, .separator])
          (by decide +kernel) (by decide +kernel)
      have hhandled : Handled ctx h := .refreshed (.computed (.mutated hbuilt hf) hg) hh
      have hevaluated : h.isEvaluated = true := by
        obtain ⟨-, -, hfitness⟩ := success_of_computeFitness rfl hg
        rw [isEvaluated, forest_of_refresh hh, (evaluate_forest ctx g s.executed).2, hfitness]
        rfl
      obtain ⟨fresh, v, hfresh, hestimates, -⟩ := (cached_fitness_is_fresh crossDataset {}
        errorRates).1 h hhandled hevaluated { source, executed := 7 }
      exact ⟨f, u, x, g, s, h, t, rfl, hg, hh, hevaluated, fresh, v, hfresh, hestimates⟩

end Forest

end FuzzyForest
