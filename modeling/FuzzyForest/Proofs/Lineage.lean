/-
Lineages of forests.

Random forests are sound for their dataset, and mutation, crossing, compaction, new weights and
evaluation keep them so.  Forests that come of random ones can therefore always be evaluated, and a
run that breeds them neither fails nor discards a generation.
-/
import FuzzyForest.Evolution.Plan
import FuzzyForest.Proofs.ClosedRun
import FuzzyForest.Proofs.Crossing
import FuzzyForest.Proofs.MutationPass
import FuzzyForest.Proofs.SoundEvaluation

namespace FuzzyForest

open Act (Returns)
open Code (IsForest)

/-! ### Kinds decide -/

namespace Code

variable {α : Type} {n : Nat} {a b : Code α}

lemma depthThrough_congr (h : b.map Instruction.opcode = a.map Instruction.opcode) (d : Nat) :
    depthThrough d b = depthThrough d a := by
  induction a generalizing b d with
  | nil =>
    rw [List.map_nil, List.map_eq_nil_iff] at h
    rw [h]
  | cons i a ih =>
    rw [List.map_cons, List.map_eq_cons_iff] at h
    obtain ⟨j, b, rfl, hij, hab⟩ := h
    rw [depthThrough_cons, depthThrough_cons, depthBehind_congr hij]
    congr 1
    funext e
    exact ih hab e

/-- What is said of all kinds in a buffer. -/
lemma forall_congr (h : b.map Instruction.opcode = a.map Instruction.opcode) {P : Opcode → Prop}
    (ha : ∀ i ∈ a, P i.opcode) : ∀ j ∈ b, P j.opcode := by
  intro j hj
  have hmem := List.mem_map_of_mem (f := Instruction.opcode) hj
  rw [h] at hmem
  obtain ⟨i, hi, hij⟩ := List.mem_map.mp hmem
  rw [← hij]
  exact ha i hi

/-- Whether a buffer is closed depends on the kind of its last instruction only. -/
lemma IsClosed.congr (ha : IsClosed a)
    (h : b.map Instruction.opcode = a.map Instruction.opcode) : IsClosed b := by
  intro i hi
  have hlast : a.getLast?.map Instruction.opcode = some i.opcode := by
    rw [← List.getLast?_map, ← h, List.getLast?_map, hi, Option.map_some]
  obtain ⟨j, hj, hij⟩ := Option.map_eq_some_iff.mp hlast
  rw [Instruction.isSeparator, ← hij]
  exact ha j hj

/-- Whether a buffer is a forest depends on the kinds of its instructions only. -/
lemma IsForest.congr (ha : IsForest n a)
    (h : b.map Instruction.opcode = a.map Instruction.opcode) : IsForest n b := by
  obtain ⟨hdepth, hclosed, hseparators⟩ := isForest_iff.mp ha
  refine isForest_iff.mpr ⟨by rw [depthThrough_congr h, hdepth], hclosed.congr h, ?_⟩
  have hcount : ∀ code : Code α,
      code.separators = (code.map Instruction.opcode).countP (· = .separator) := fun code => by
    rw [List.countP_map]
    rfl
  rw [← hseparators, hcount, hcount, h]

/-- A forest stays one without its placeholders. -/
lemma IsForest.compact (h : IsForest n a) : IsForest n a.compact := by
  induction h with
  | nil => exact .nil
  | @cons n tree rest sep htree hsep hrest ih =>
    rw [compact_tree hsep]
    exact .cons ((isWellFormed_compact tree).trans htree) hsep ih

end Code

namespace Forest

variable {ds : Dataset Float} {settings : ModelSettings} {f : Forest Float}

/-! ### Sound forests -/

lemma IsSound.length_trees (h : f.IsSound ds) : f.trees.length = f.outputs := by
  obtain ⟨hlength, -⟩ := h.isForest.pieces_eq
  rw [h.outputs, ← hlength, ← treeCodes_eq, treeCodes, List.length_map]

/-- A sound forest passes every check. -/
lemma IsSound.validate (h : f.IsSound ds) : f.validate = .ok () := by
  obtain ⟨-, htrees⟩ := h.isForest.pieces_eq
  have hnone : malformed? f.treeCodes = none := by
    rw [malformed?, treeCodes_eq, Option.map_eq_none_iff, List.find?_eq_none]
    rintro ⟨tree, i⟩ hmem
    simp [htrees tree (List.fst_mem_of_mem_zipIdx hmem)]
  rw [Forest.validate, if_neg (by simp [h.length_trees]), hnone]

/-- Random trees, one after the other. -/
lemma returns_repeated_trees (s : ModelSettings) (shape : Shape) (n : Nat) :
    Returns (Draw.repeated (do return (← Draw.tree s shape) ++ [Instruction.separator]) n)
      fun code => ∃ trees, trees.length = n ∧ (∀ tree ∈ trees, Draw.DrawnTree s shape tree) ∧
        code = joined trees := by
  have htree : Returns (do return (← Draw.tree s shape) ++ [Instruction.separator])
      fun code => ∃ tree, Draw.DrawnTree s shape tree ∧ code = tree ++ [Instruction.separator] :=
    (Draw.returns_tree s shape).bind fun tree htree => .pure ⟨tree, htree, rfl⟩
  induction n with
  | zero => exact .pure ⟨[], rfl, nofun, rfl⟩
  | succ n ih =>
    refine htree.bind ?_
    rintro - ⟨tree, htree, rfl⟩
    refine ih.bind ?_
    rintro - ⟨trees, hlength, htrees, rfl⟩
    exact .pure ⟨tree :: trees, congrArg Nat.succ hlength,
      List.forall_mem_cons.mpr ⟨htree, htrees⟩, rfl⟩

/-- A random forest is made of random trees. -/
lemma returns_random_trees (ctx : Context Float) : Returns (random ctx) fun f =>
    ∃ trees, trees.length = ctx.dataset.targets ∧
      (∀ tree ∈ trees, Draw.DrawnTree ctx.settings ctx.shape tree) ∧ f.code = joined trees ∧
      IsForest ctx.dataset.targets f.code ∧ f.outputs = ctx.dataset.targets := by
  refine (returns_repeated_trees ctx.settings ctx.shape ctx.dataset.targets).bind ?_
  rintro - ⟨trees, hlength, htrees, rfl⟩
  have hforest := isForest_joined fun tree htree => (htrees tree htree).isWellFormed
  obtain ⟨hcode, houtputs⟩ := ofCode_of_isForest hforest ctx.dataset.records
  exact .pure ⟨trees, hlength, htrees, hcode, hlength ▸ hcode.symm ▸ hforest,
    hlength ▸ houtputs⟩

/-- A random forest is sound. -/
lemma returns_random (ds : Dataset Float) (settings : ModelSettings) :
    Returns (random (.fuzzy ds settings)) (IsSound ds) := by
  refine (returns_random_trees (.fuzzy ds settings)).mono ?_
  rintro f ⟨trees, -, htrees, hcode, hforest, houtputs⟩
  refine ⟨hforest, houtputs, fun i hi => ?_⟩
  rw [hcode] at hi
  rcases mem_joined hi with ⟨tree, htree, hi⟩ | rfl
  · exact ((htrees tree htree).drawn i hi).inRange
  · exact Instruction.inRange_of_not_isLive rfl

lemma IsSound.mutated (h : f.IsSound ds) (settings : ModelSettings) (p : Float) :
    Returns (mutated (.fuzzy ds settings) p f) (IsSound ds) :=
  (returns_mutated (.fuzzy ds settings) p h.isForest).mono fun _ hg =>
    ⟨hg.1, hg.2.1.trans h.outputs, hg.2.2.2 _ heritable_inRange h.inRange⟩

/-- Sound forests have sound offspring. -/
lemma IsSound.crossed {a b : Forest Float} (ha : a.IsSound ds) (hb : b.IsSound ds)
    (settings : ModelSettings) (p : Float) :
    Run.Yields (crossed (.fuzzy ds settings) p a b) fun r => r.1.IsSound ds ∧ r.2.IsSound ds := by
  -- the trees are crossed one pair after the other, since both forests have as many
  have htrees : Returns (crossTrees settings.nontrivial p a.code b.code a.outputs 0 0)
      (CrossedTrees ds.targets a.code b.code) := by
    rw [ha.outputs]
    exact returns_crossTrees settings.nontrivial p ha.isForest hb.isForest
  rw [Forest.crossed, if_neg (by simp [ha.outputs, hb.outputs])]
  refine (Run.Yields.draw htrees).bind fun r hr => ?_
  obtain ⟨son, daughter⟩ := r
  dsimp only
  split
  · obtain ⟨hson, hdaughter⟩ := hr.isForest (fun i hi => (ha.inRange i hi).notAggregate)
      fun i hi => (hb.inRange i hi).notAggregate
    have hrange : ∀ i, i ∈ son ∨ i ∈ daughter → i.InRange ds.shape := by
      intro i hi
      rcases hr.mem hi with hi | hi | hi
      · exact ha.inRange i hi
      · exact hb.inRange i hi
      · exact Instruction.inRange_of_not_isLive (by rw [Instruction.isLive_eq, hi]; simp)
    exact .pure ⟨⟨hson, ha.outputs, fun i hi => hrange i (.inl hi)⟩,
      ⟨hdaughter, hb.outputs, fun i hi => hrange i (.inr hi)⟩⟩
  · exact (Run.Yields.note rfl).bind fun _ _ => .pure ⟨ha, hb⟩

lemma IsSound.compact (h : f.IsSound ds) : f.compact.IsSound ds :=
  ⟨h.isForest.compact, h.outputs, fun i hi => h.inRange i (List.mem_filter.mp hi).1⟩

/-- New weights change nothing but weights. -/
lemma map_reweighted (code : Code Float) (ws : List Float) :
    (reweighted code ws).map (fun i => (i.opcode, i.operand, i.lag))
      = code.map fun i => (i.opcode, i.operand, i.lag) := by
  induction code generalizing ws with
  | nil => rfl
  | cons i rest ih =>
    by_cases hl : i.isLive = true
    · cases ws with
      | nil => simp [reweighted, hl]
      | cons w ws => simp [reweighted, hl, ih]
    · simp [reweighted, hl, ih]

lemma opcodes_reweighted (code : Code Float) (ws : List Float) :
    (reweighted code ws).map Instruction.opcode = code.map Instruction.opcode := by
  have hfirst := congrArg (List.map Prod.fst) (map_reweighted code ws)
  rw [List.map_map, List.map_map] at hfirst
  exact hfirst

lemma eq_of_setWeights {ws : List Float} {g : Forest Float} (h : f.setWeights ws = .ok g) :
    g = { f with code := reweighted f.code ws, fitness? := none } := by
  rw [Forest.setWeights] at h
  split at h
  · exact (Except.ok.inj h).symm
  · cases h

lemma IsSound.setWeights (h : f.IsSound ds) {ws : List Float} {g : Forest Float}
    (hg : f.setWeights ws = .ok g) : g.IsSound ds := by
  obtain rfl := eq_of_setWeights hg
  refine ⟨h.isForest.congr (opcodes_reweighted f.code ws), h.outputs, ?_⟩
  intro j hj
  -- every new instruction reads what some old one reads
  have hmem := List.mem_map_of_mem (f := fun i : Instruction Float =>
    (i.opcode, i.operand, i.lag)) hj
  rw [map_reweighted f.code ws] at hmem
  obtain ⟨i, hi, hij⟩ := List.mem_map.mp hmem
  simp only [Prod.mk.injEq] at hij
  obtain ⟨hop, hoperand, hlag⟩ := hij
  obtain ⟨hnotAggregate, hinput, htarget, hlagged⟩ := h.inRange i hi
  rw [Instruction.isAggregate, hop] at hnotAggregate
  rw [hop, hoperand] at hinput htarget
  rw [hop, hlag] at hlagged
  exact ⟨hnotAggregate, hinput, htarget, hlagged⟩

/-! ### Evaluation -/

/-- Evaluating a forest reports no discarded generation. -/
lemma discards_notes (e : Evaluation Float) (j : Journal) :
    Journal.discards (e.notes.reverse ++ j) = j.discards := by
  have hexecuting : ∀ trees : List (Code Float), Journal.discards (trees.map Note.executing) = [] :=
    fun trees => by simp [Journal.discards, List.filter_eq_nil_iff]
  have hrun : ∀ tree, Journal.discards (runNotes tree e.failure?) = [] := by
    intro tree
    cases e.failure? with
    | none => rfl
    | some cause => cases cause <;> rfl
  have hnotes : Journal.discards e.notes = [] := by
    rw [Evaluation.notes]
    split
    · rfl
    · rw [Journal.discards, List.filter_append, ← Journal.discards, hexecuting, List.nil_append]
      exact hrun _
  rw [Journal.discards, List.filter_append, List.filter_reverse, ← Journal.discards, hnotes]
  rfl

/-- Evaluating a forest does not touch its instructions. -/
lemma evaluate_code {α : Type} [Scalar α] (ctx : Context α) (f : Forest α) (count : Nat) :
    (f.evaluate ctx count).forest.code = f.code ∧
      (f.evaluate ctx count).forest.outputs = f.outputs := by
  simp only [evaluate]
  split
  · exact ⟨rfl, rfl⟩
  · split <;> exact ⟨rfl, rfl⟩

/-- Computing the fitness does not touch the instructions, whether it succeeds or fails. -/
lemma computeFitness_code {ctx : Context Float} {f g : Forest Float} {s t : Session}
    {r : Except Error Float} (h : Forest.computeFitness ctx (f, s) = (r, g, t)) :
    g.code = f.code ∧ g.outputs = f.outputs := by
  have hkeeps := evaluate_code ctx { f with fitness? := none } s.executed
  cases hfailure : (evaluate ctx { f with fitness? := none } s.executed).failure? <;>
    simp only [Forest.computeFitness, refresh, hfailure] at h <;> cases h <;> exact hkeeps

/-- **The fitness of a sound forest can be computed**, and the forest stays sound. -/
theorem IsSound.computeFitness (htargets : 0 < ds.targets) (h : f.IsSound ds)
    (settings : ModelSettings) (s : Session) :
    ∃ fitness g t, computeFitness (.fuzzy ds settings) (f, s) = (.ok fitness, g, t) ∧
      g.IsSound ds ∧ t.journal.discards = s.journal.discards := by
  have hsound : IsSound ds { f with fitness? := none } := ⟨h.isForest, h.outputs, h.inRange⟩
  have hnone := hsound.evaluate htargets settings s.executed
  obtain ⟨hcode, houtputs⟩ :=
    evaluate_code (.fuzzy ds settings) { f with fitness? := none } s.executed
  simp only [Forest.computeFitness, refresh, hnone]
  refine ⟨_, _, _, rfl, ⟨?_, ?_, ?_⟩, ?_⟩
  · rw [hcode]
    exact h.isForest
  · rw [houtputs]
    exact h.outputs
  · rw [hcode]
    exact h.inRange
  · exact discards_notes _ _

/-- Sound forests make a closed species. -/
lemma species_isClosed (htargets : 0 < ds.targets) (settings : ModelSettings)
    (sorting : Sorting (Forest Float)) :
    (species (.fuzzy ds settings) sorting).IsClosed (IsSound ds) where
  mutated p _ h := h.mutated settings p
  crossed p _ _ ha hb := ha.crossed hb settings p
  evaluate _ s h := h.computeFitness htargets settings s

/-! ### Lineages -/

/-- The forests that come of random ones by mutation, crossing, compaction, new weights and
evaluation. -/
inductive Reachable (ctx : Context Float) : Forest Float → Prop
  | random {f : Forest Float} {source source' : Source}
    (h : random ctx source = (.ok f, source')) : Reachable ctx f
  | mutated {f g : Forest Float} {p : Float} {source source' : Source} (hf : Reachable ctx f)
    (h : mutated ctx p f source = (.ok g, source')) : Reachable ctx g
  | son {a b son daughter : Forest Float} {p : Float} {s s' : Session} (ha : Reachable ctx a)
    (hb : Reachable ctx b) (h : crossed ctx p a b s = (.ok (son, daughter), s')) :
    Reachable ctx son
  | daughter {a b son daughter : Forest Float} {p : Float} {s s' : Session} (ha : Reachable ctx a)
    (hb : Reachable ctx b) (h : crossed ctx p a b s = (.ok (son, daughter), s')) :
    Reachable ctx daughter
  | compact {f : Forest Float} (hf : Reachable ctx f) : Reachable ctx f.compact
  | setWeights {f g : Forest Float} {ws : List Float} (hf : Reachable ctx f)
    (h : f.setWeights ws = .ok g) : Reachable ctx g
  | computed {f g : Forest Float} {fitness : Except Error Float} {s s' : Session}
    (hf : Reachable ctx f) (h : computeFitness ctx (f, s) = (fitness, g, s')) : Reachable ctx g

/-- Whatever comes of random forests is sound. -/
lemma Reachable.isSound (h : Reachable (.fuzzy ds settings) f) : f.IsSound ds := by
  induction h with
  | random h => exact (returns_random ds settings).ok h
  | mutated _ h ih => exact (ih.mutated settings _).ok h
  | son _ _ h iha ihb => exact ((iha.crossed ihb settings _ _).ok rfl h).1.1
  | daughter _ _ h iha ihb => exact ((iha.crossed ihb settings _ _).ok rfl h).1.2
  | compact _ ih => exact ih.compact
  | setWeights _ h ih => exact ih.setWeights h
  | computed _ h ih =>
    obtain ⟨hcode, houtputs⟩ := computeFitness_code h
    exact ⟨hcode.symm ▸ ih.isForest, houtputs.trans ih.outputs, hcode.symm ▸ ih.inRange⟩

/-- A run that breeds forests ends unless its source is exhausted or a sort of many members breaks
off, and leaves no report of a discarded generation but those that were there before and those that
it is told of. -/
lemma run_never_fails (htargets : 0 < ds.targets) (settings : ModelSettings)
    {rules : EvolutionSettings} (notes : Event (Forest Float) → List Note)
    (sorting : Sorting (Forest Float)) (clock : Nat → Float)
    (trail : Evolution.Trail (Forest Float)) (hcheck : rules.check = .ok ()) :
    let plan := Evolution.Plan.forests (.fuzzy ds settings) rules notes sorting
    let outcome := Evolution.run plan clock trail
    (∀ e, outcome.1 = .error e → e.IsBreakdown rules.populationSize) ∧
      ∀ generation cause, .discarded generation cause ∈ outcome.2.2.journal →
        .discarded generation cause ∈ trail.2.journal ∨
          ∃ event ∈ outcome.2.1, .discarded generation cause ∈ notes event := by
  intro plan outcome
  have hyields : Evolution.Yields plan rules.populationSize trail.2.journal
      (Evolution.run plan clock) _ :=
    Evolution.yields_run (species_isClosed htargets settings sorting) (returns_random ds settings)
      hcheck clock
  have hbefore : Evolution.Accounted plan trail.2.journal trail := by
    intro n hn
    exact .inl (List.mem_filter.mp hn).1
  have hrun := hyields trail hbefore
  simp only [outcome]
  rcases houtcome : Evolution.run plan clock trail with ⟨e | outcome, trail'⟩ <;>
    rw [houtcome] at hrun
  · constructor
    · rintro e' ⟨⟩
      exact hrun.1
    · intro generation cause hmem
      exact hrun.2 _ (List.mem_filter.mpr ⟨hmem, rfl⟩)
  · constructor
    · rintro e' ⟨⟩
    · intro generation cause hmem
      exact hrun.2 _ (List.mem_filter.mpr ⟨hmem, rfl⟩)

/-- **No descendant of random forests is ever at fault.**  Whatever random forests are mutated,
crossed, compacted, reweighted and evaluated to, it is well formed, has one tree for each target and
reads nothing out of range; its fitness can be computed, and the operators fail only for want of
random words.  So does a run that breeds such forests, and it discards no generation; but a sort of
many members may break off. -/
theorem lineage_never_fails (ds : Dataset Float) (settings : ModelSettings)
    (htargets : 0 < ds.targets) :
    let ctx := Context.fuzzy ds settings
    (∀ f, Reachable ctx f →
      f.validate = .ok () ∧ f.trees.length = f.outputs ∧ f.code.separators = f.outputs ∧
      f.outputs = ds.targets ∧
      (∀ i ∈ f.code, i.opcode ≠ .processAll ∧
        (i.opcode = .input ∨ i.opcode = .pastInput → i.operand < max ds.inputs 1) ∧
        (i.opcode = .pastOutput → i.operand < ds.targets) ∧
        (i.opcode = .pastInput ∨ i.opcode = .pastOutput → 1 ≤ i.lag)) ∧
      (∀ s, ∃ fitness g t, computeFitness ctx (f, s) = (.ok fitness, g, t)) ∧
      (∀ p source e source', mutated ctx p f source = (.error e, source') → e = .stalled) ∧
      ∀ g, Reachable ctx g → ∀ p s e t, crossed ctx p f g s = (.error e, t) → e = .stalled) ∧
    (∀ source e source', random ctx source = (.error e, source') → e = .stalled) ∧
    ∀ (rules : EvolutionSettings) (notes : Event (Forest Float) → List Note)
      (sorting : Sorting (Forest Float)) (clock : Nat → Float)
      (trail : Evolution.Trail (Forest Float)), rules.check = .ok () →
      let outcome := Evolution.run (Evolution.Plan.forests ctx rules notes sorting) clock trail
      (∀ e, outcome.1 = .error e →
        e = .stalled ∨ e = .unsortable ∧ Ranking.few < rules.populationSize) ∧
      ∀ generation cause, .discarded generation cause ∈ outcome.2.2.journal →
        .discarded generation cause ∈ trail.2.journal ∨
          ∃ event ∈ outcome.2.1, .discarded generation cause ∈ notes event := by
  intro ctx
  refine ⟨?_, ?_, ?_⟩
  · intro f hf
    have hsound := hf.isSound
    refine ⟨hsound.validate, hsound.length_trees,
      hsound.isForest.separators_eq.trans hsound.outputs.symm, hsound.outputs, ?_, ?_, ?_, ?_⟩
    · intro i hi
      obtain ⟨hnotAggregate, hinput, htarget, hlag⟩ := hsound.inRange i hi
      refine ⟨of_decide_eq_false hnotAggregate, hinput, ?_, hlag⟩
      intro hop
      have hoperand : i.operand < max ds.targets 1 := htarget hop
      omega
    · intro s
      obtain ⟨fitness, g, t, hcompute, -⟩ := hsound.computeFitness htargets settings s
      exact ⟨fitness, g, t, hcompute⟩
    · intro p source e source' h
      exact (hsound.mutated settings p).error trivial h
    · intro g hg p s e t h
      exact ((hsound.crossed (hg.isSound) settings p _).error rfl h).1
  · intro source e source' h
    exact (returns_random ds settings).error trivial h
  · intro rules notes sorting clock trail hcheck
    exact run_never_fails htargets settings notes sorting clock trail hcheck

/-- A series of values without any inputs. -/
def series : Dataset Float := ⟨#[0.25, 0.5, 1.0], 3, 1, 1, none, rfl, by decide⟩

/-- A forest for a series that is drawn and mutated, and a run that breeds such forests. -/
theorem lineage_never_fails_series :
    let settings : ModelSettings := { nontrivial := true, pastOutputLimit := 4 }
    let ctx := Context.fuzzy series settings
    let source : Source := ⟨fun n => ((n * 5 + 2) % 9 * 576460752303423488).toUInt64, 0, 4⟩
    let rules : EvolutionSettings := { populationSize := 4, generations := 3 }
    0 < series.targets ∧ rules.check = .ok () ∧
      (∃ f source1 g source2, random ctx source = (.ok f, source1) ∧
        mutated ctx 1.0 f source1 = (.ok g, source2) ∧ g.validate = .ok () ∧
        ∃ fitness h t, computeFitness ctx (g, { source }) = (.ok fitness, h, t)) ∧
      ∀ generation cause, .discarded generation cause ∉
        (Evolution.run (Evolution.Plan.forests ctx rules Event.notes) (fun _ => 0.0)
          ([], { source })).2.2.journal := by
  intro settings ctx source rules
  obtain ⟨hreachable, -, hrun⟩ := lineage_never_fails series settings (by decide)
  refine ⟨by decide, by decide +kernel, ?_, ?_⟩
  · have hok : ((random ctx >>= mutated ctx 1.0) source).1.isOk = true := by decide +kernel
    rcases h : (random ctx >>= mutated ctx 1.0) source with ⟨e | g, source2⟩
    · rw [h] at hok
      cases hok
    · clear hok
      obtain ⟨f, source1, hf, hg⟩ := Act.bind_eq_ok.mp h
      obtain ⟨hvalid, -, -, -, -, hcompute, -, -⟩ := hreachable g (.mutated (.random hf) hg)
      exact ⟨f, source1, g, source2, hf, hg, hvalid, hcompute { source }⟩
  · intro generation cause hmem
    rcases (hrun rules Event.notes .insertion (fun _ => 0.0) ([], { source }) (by decide +kernel)).2
      generation cause hmem with h | ⟨event, -, h⟩
    · cases h
    · cases event <;> simp [Event.notes] at h

end Forest

end FuzzyForest
