/-
What a mutation pass does.

A pass takes turns.  A turn passes over the first instruction that is left, or changes what stands
there, and what it has written is done with: it is an edit of the buffer.  Each edit leaves a forest
a forest with as many trees, and hands down what is true of all drawn instructions and of what
changes in place.  Aggregates go where a turn puts a random tree in the place of a subtree, and
nowhere else.
-/
import FuzzyForest.Forest.Mutation
import FuzzyForest.Proofs.Growth
import FuzzyForest.Proofs.Span
import Mathlib.Logic.Relation

namespace FuzzyForest

open Act (Returns)
open Code (IsForest)
open Relation (ReflTransGen)

/-- A drawn tree is well formed. -/
lemma Draw.DrawnTree.isWellFormed {s : ModelSettings} {shape : Shape} {tree : Code Float}
    (h : Draw.DrawnTree s shape tree) : tree.isWellFormed = true :=
  Code.isWellFormed_iff.mpr
    ⟨fun i hi => Code.isSeparator_of_isLive (h.drawn i hi).isLive, h.pushes 0⟩

/-! ### Aggregates -/

namespace Code

/-- The operands and lags of the aggregates of a buffer. -/
def aggregates (code : Code Float) : List (Nat × Nat) :=
  (code.filter Instruction.isAggregate).map fun i => (i.operand, i.lag)

lemma aggregates_append (a b : Code Float) :
    (a ++ b).aggregates = a.aggregates ++ b.aggregates := by
  rw [aggregates, List.filter_append, List.map_append]
  rfl

lemma aggregates_eq_nil {code : Code Float} (h : ∀ i ∈ code, i.isAggregate = false) :
    code.aggregates = [] := by
  rw [aggregates, List.filter_eq_nil_iff.mpr fun i hi => by simp [h i hi], List.map_nil]

lemma aggregates_singleton {i : Instruction Float} (h : i.isAggregate = false) :
    aggregates [i] = [] := aggregates_eq_nil (by simpa using h)

lemma aggregates_pair (i : Instruction Float) {j : Instruction Float} (h : j.isAggregate = false) :
    aggregates [i, j] = aggregates [i] := by
  rw [← List.singleton_append, aggregates_append, aggregates_singleton h, List.append_nil]

end Code

/-- A mutation keeps an aggregate as it is, but for its weight, and makes none. -/
lemma Draw.aggregates_mutated (s : ModelSettings) (shape : Shape) (i : Instruction Float) :
    Returns (Draw.mutated s shape i) fun j =>
      i.Retuned shape j ∧ Code.aggregates [j] = Code.aggregates [i] := by
  by_cases hi : i.isAggregate = true
  · refine ((returns_mutated s shape i).and (returns_mutated_of_isAggregate s shape hi)).mono ?_
    rintro - ⟨hj, w, rfl⟩
    refine ⟨hj, ?_⟩
    have hagg : ({ i with weight := w } : Instruction Float).isAggregate = true := hi
    simp [Code.aggregates, hi, hagg]
  · refine (returns_mutated s shape i).mono fun j hj => ⟨hj, ?_⟩
    have hagg : j.isAggregate = false := by
      rw [Instruction.isAggregate, hj.opcode]
      exact eq_false_of_ne_true hi
    simp [Code.aggregates, hi, hagg]

namespace Forest

/-! ### Edits -/

/-- The code that is done, the last instruction first, and the code that is left. -/
abbrev Place := Code Float × Code Float

/-- The whole buffer around a place. -/
def Place.code (z : Place) : Code Float := z.1.reverse ++ z.2

lemma Place.mem_code {z : Place} {i : Instruction Float} : i ∈ z.code ↔ i ∈ z.1 ∨ i ∈ z.2 := by
  rw [Place.code, List.mem_append, List.mem_reverse]

/-- The subtree of the first instruction that is left. -/
def Place.subtree : Place → Code Float
  | (_, []) => []
  | (before, i :: _) => (before.take (Code.reachOf i before)).reverse ++ [i]

/-- The buffer in front of the last instructions of a place, those up to its first one that is left,
and the buffer behind that. -/
lemma Place.code_split (before rest : Code Float) (i : Instruction Float) (k : Nat) :
    Place.code (before, i :: rest)
      = (before.drop k).reverse ++ ((before.take k).reverse ++ [i]) ++ rest := by
  rw [← List.append_assoc, ← List.reverse_append, List.take_append_drop]
  simp [Place.code]

/-- One step of a mutation pass. -/
inductive Edit (s : ModelSettings) (shape : Shape) : Place → Place → Prop
  /-- An instruction is passed over. -/
  | keep {before rest : Code Float} {i : Instruction Float} :
    Edit s shape (before, i :: rest) (i :: before, rest)
  /-- An instruction changes in place. -/
  | retune {before rest : Code Float} {i j : Instruction Float} (hi : i.isLive = true)
    (hj : i.Retuned shape j) : Edit s shape (before, i :: rest) (j :: before, rest)
  /-- A complement is put behind an instruction. -/
  | insert {before rest : Code Float} {i unary : Instruction Float} (hi : i.isLive = true)
    (hallow : s.allowNot = true) (hunary : unary.Drawn s shape) (harity : unary.arity = 1) :
    Edit s shape (before, i :: rest) (unary :: i :: before, rest)
  /-- A complement takes the place of the placeholder behind an instruction. -/
  | fill {before rest : Code Float} {i next unary : Instruction Float} (hi : i.isLive = true)
    (hnext : next.isNoOp = true) (hallow : s.allowNot = true) (hunary : unary.Drawn s shape)
    (harity : unary.arity = 1) :
    Edit s shape (before, i :: next :: rest) (unary :: i :: before, rest)
  /-- A unary node is dropped. -/
  | drop {before rest : Code Float} {i : Instruction Float} (hi : i.isLive = true)
    (ha : i.isAggregate = false) (harity : i.arity = 1)
    (hspare : leastForDeletion < liveAround before (i :: rest) ∨ s.nontrivial = false) :
    Edit s shape (before, i :: rest) (Instruction.noOp :: before, rest)
  /-- An instruction is drawn again. -/
  | redraw {before rest : Code Float} {i j : Instruction Float} (hi : i.isLive = true)
    (ha : i.isAggregate = false) (hj : j.Drawn s shape) (harity : j.arity = i.arity) :
    Edit s shape (before, i :: rest) (j :: before, rest)
  /-- A random tree takes the place of a subtree. -/
  | graft {before rest tree : Code Float} {i : Instruction Float} (hi : i.isLive = true)
    (htree : Draw.DrawnTree s shape tree) :
    Edit s shape (before, i :: rest) (tree.reverse ++ before.drop (Code.reachOf i before), rest)

variable {s : ModelSettings} {shape : Shape}

/-- After an edit less code is left. -/
lemma Edit.length_lt {y z : Place} (h : Edit s shape y z) : z.2.length < y.2.length := by
  cases h <;> simp only [List.length_cons] <;> omega

/-! ### Turns -/

/-- What a turn of a mutation pass does at the instruction that it comes to. -/
inductive Change
  /-- The instruction is passed over. -/
  | keep
  /-- The instruction changes in place. -/
  | inPlace
  /-- A complement is put behind the instruction. -/
  | insertion
  /-- The instruction changes to one of its arity. -/
  | point
  /-- A random tree takes the place of the subtree. -/
  | subtree
deriving DecidableEq

/-- A turn of a mutation pass, where the code before the instruction `i` is done. -/
def turn (s : ModelSettings) (shape : Shape) (p : Float) (before : Code Float)
    (i : Instruction Float) (rest : Code Float) : Draw (Change × Place) :=
  if !i.isLive then return (.keep, i :: before, rest)
  else do
    if p ≤ (← Draw.unit) then return (.keep, i :: before, rest)
    else
      let roll ← Draw.unit
      if roll < inPlaceBelow then do
        let j ← Draw.mutated s shape i
        return (.inPlace, j :: before, rest)
      else if roll < insertionBelow ∧ s.allowNot then do
        let unary ← Draw.ofArity s shape 1
        match rest with
        | [] => return (.insertion, unary :: i :: before, [])
        | next :: rest =>
          if next.isNoOp then return (.insertion, unary :: i :: before, rest)
          else return (.insertion, unary :: i :: before, next :: rest)
      else if (← Draw.unit) < pointChange then do
        let j ← changed s shape before i rest
        return (.point, j :: before, rest)
      else do
        let tree ← Draw.tree s shape
        return (.subtree, tree.reverse ++ before.drop (Code.reachOf i before), rest)

/-- A pass takes one turn after another. -/
lemma mutatePass_cons (p : Float) (before : Code Float) (i : Instruction Float)
    (rest : Code Float) : mutatePass s shape p before (i :: rest)
      = turn s shape p before i rest >>= fun r => mutatePass s shape p r.2.1 r.2.2 := by
  rw [mutatePass, turn]
  split
  · rfl
  · rw [Act.bind_assoc]
    congr 1
    funext x
    split
    · rfl
    · rw [Act.bind_assoc]
      congr 1
      funext roll
      split
      · rw [Act.bind_assoc]
        rfl
      · split
        · rw [Act.bind_assoc]
          congr 1
          funext unary
          cases rest with
          | nil => rfl
          | cons next rest =>
            dsimp only
            split <;> rfl
        · rw [Act.bind_assoc]
          congr 1
          funext y
          split <;> rw [Act.bind_assoc] <;> rfl

/-- What a turn does: it is an edit, and unless it puts a random tree in the place of the subtree of
its instruction, it keeps the aggregates. -/
structure Turned (s : ModelSettings) (shape : Shape) (y : Place) (change : Change) (z : Place) :
    Prop where
  edit : Edit s shape y z
  kept : change ≠ .subtree → z.code.aggregates = y.code.aggregates
  replaced : change = .subtree → ∃ front tree back, y.code = front ++ y.subtree ++ back ∧
    z.code = front ++ tree ++ back ∧ Draw.DrawnTree s shape tree

/-- An edit that writes other code with the same aggregates. -/
lemma Turned.of_aggregates {y z : Place} {change : Change} (hchange : change ≠ .subtree)
    (hedit : Edit s shape y z) (front old new back : Code Float)
    (hy : y.code = front ++ old ++ back) (hz : z.code = front ++ new ++ back)
    (h : new.aggregates = old.aggregates) : Turned s shape y change z := by
  refine ⟨hedit, fun _ => ?_, fun hsubtree => absurd hsubtree hchange⟩
  simp only [hy, hz, Code.aggregates_append, h]

section

variable {before rest : Code Float} {i : Instruction Float}

/-- An instruction in the place of another one. -/
lemma Turned.of_instruction {j : Instruction Float} {change : Change} (hchange : change ≠ .subtree)
    (hedit : Edit s shape (before, i :: rest) (j :: before, rest))
    (h : Code.aggregates [j] = Code.aggregates [i]) :
    Turned s shape (before, i :: rest) change (j :: before, rest) :=
  .of_aggregates hchange hedit before.reverse [i] [j] rest (by simp [Place.code])
    (by simp [Place.code]) h

/-- The change of an instruction to one of its arity is an edit and keeps an aggregate. -/
lemma returns_changed (hi : i.isLive = true) : Returns (changed s shape before i rest) fun j =>
    Edit s shape (before, i :: rest) (j :: before, rest) ∧
      Code.aggregates [j] = Code.aggregates [i] := by
  refine .ite (fun _ => ?_) fun ha => .ite (fun h => .pure ?_) fun _ => ?_
  · exact (Draw.aggregates_mutated s shape i).mono fun j hj => ⟨.retune hi hj.1, hj.2⟩
  · have ha : i.isAggregate = false := eq_false_of_ne_true ha
    refine ⟨.drop hi ha h.1 (h.2.imp_right fun hs => by simpa using hs), ?_⟩
    rw [Code.aggregates_singleton rfl, Code.aggregates_singleton ha]
  · have ha : i.isAggregate = false := eq_false_of_ne_true ha
    refine (Draw.returns_ofArity s shape i.opcode.arity_le_two).mono fun j hj =>
      ⟨.redraw hi ha hj.1 hj.2, ?_⟩
    rw [Code.aggregates_singleton hj.1.inRange.notAggregate, Code.aggregates_singleton ha]

/-- **Every turn of a mutation pass is an edit, and keeps the aggregates unless it puts a random tree
in the place of a subtree.** -/
theorem returns_turn (p : Float) : Returns (turn s shape p before i rest) fun r =>
    Turned s shape (before, i :: rest) r.1 r.2 := by
  have hkeep : Turned s shape (before, i :: rest) .keep (i :: before, rest) :=
    .of_instruction nofun .keep rfl
  refine .ite (fun _ => .pure hkeep) fun hi => ?_
  have hi : i.isLive = true := by simpa using hi
  refine Draw.returns_unit.bind fun x _ => .ite (fun _ => .pure hkeep) fun _ => ?_
  -- the roll decides between a change in place, an insertion, a change of kind and a graft
  refine Draw.returns_unit.bind fun roll _ => .ite (fun _ => ?_) fun _ =>
    .ite (fun hallow => ?_) fun _ => Draw.returns_unit.bind fun y _ =>
      .ite (fun _ => ?_) fun _ => ?_
  · exact (Draw.aggregates_mutated s shape i).bind fun j hj =>
      .pure (.of_instruction nofun (.retune hi hj.1) hj.2)
  · refine (Draw.returns_ofArity s shape (by decide)).bind fun unary hunary => ?_
    have hagg : Code.aggregates [i, unary] = Code.aggregates [i] :=
      Code.aggregates_pair i hunary.1.inRange.notAggregate
    have hinsert : Turned s shape (before, i :: rest) .insertion (unary :: i :: before, rest) :=
      .of_aggregates nofun (.insert hi hallow.2 hunary.1 hunary.2) before.reverse [i] [i, unary]
        rest (by simp [Place.code]) (by simp [Place.code]) hagg
    cases rest with
    | nil => exact .pure hinsert
    | cons next rest =>
      refine .ite (fun hnext => .pure ?_) fun _ => .pure hinsert
      refine .of_aggregates nofun (.fill hi hnext hallow.2 hunary.1 hunary.2) before.reverse
        [i, next] [i, unary] rest (by simp [Place.code]) (by simp [Place.code]) ?_
      rw [hagg, Code.aggregates_pair i (Code.isSpecial_of_isNoOp hnext).1]
  · exact (returns_changed hi).bind fun j hj => .pure (.of_instruction nofun hj.1 hj.2)
  · refine (Draw.returns_tree s shape).bind fun tree htree =>
      .pure ⟨.graft hi htree, fun h => absurd rfl h, fun _ => ?_⟩
    exact ⟨_, tree, rest, Place.code_split before rest i (Code.reachOf i before),
      by simp [Place.code], htree⟩

end

/-- **A mutation pass is a chain of edits** that leaves nothing to be done. -/
theorem returns_mutatePass (p : Float) (before rest : Code Float) :
    Returns (mutatePass s shape p before rest) fun code =>
      ReflTransGen (Edit s shape) (before, rest) (code.reverse, []) := by
  induction h : rest.length using Nat.strong_induction_on generalizing before rest with
  | _ n ih =>
    subst h
    cases rest with
    | nil =>
      rw [mutatePass]
      exact .pure (by rw [List.reverse_reverse])
    | cons i rest =>
      rw [mutatePass_cons]
      exact (returns_turn p).bind fun r hr =>
        (ih _ hr.edit.length_lt _ _ rfl).mono fun code hcode => .head hr.edit hcode

/-! ### What edits keep -/

/-- A property of placeholders and of drawn instructions that are allowed, which a change in place
keeps. -/
structure Heritable (s : ModelSettings) (shape : Shape) (P : Instruction Float → Prop) : Prop where
  noOp : P Instruction.noOp
  drawn : ∀ {i}, i.Drawn s shape → i.IsAllowed s → P i
  retuned : ∀ {i j}, i.Retuned shape j → P i → P j

lemma heritable_inRange : Heritable s shape (Instruction.InRange shape) :=
  ⟨Instruction.inRange_of_not_isLive rfl, fun h _ => h.inRange, fun h => h.inRange⟩

lemma heritable_notAggregate : Heritable s shape fun i => i.isAggregate = false where
  noOp := rfl
  drawn h _ := h.inRange.notAggregate
  retuned h hi := by rwa [Instruction.isAggregate, h.opcode]

lemma heritable_isAllowed : Heritable s shape (Instruction.IsAllowed s) where
  noOp := nofun
  drawn _ h := h
  retuned h hi := by rwa [Instruction.IsAllowed, h.opcode]

namespace Edit

variable {n : Nat} {y z : Place}

/-- Code of a tree in the place of one live instruction. -/
lemma replaces_live {i : Instruction Float} (hi : i.isLive = true) (new : Code Float)
    (hnew : ∀ j ∈ new, j.isSeparator = false)
    (hdepth : ∀ d e, Code.depthBehind d i = some e → Code.depthThrough d new = some e) :
    new.Replaces [i] where
  ne_nil := List.cons_ne_nil i []
  oldInTree := List.forall_mem_singleton.mpr (Code.isSeparator_of_isLive hi)
  newInTree := hnew
  depth d e h := hdepth d e (by rwa [Code.depthThrough_singleton] at h)

/-- Two live instructions, of which the second one is a unary node, in the place of code that does to
the stack what the first one does. -/
lemma replaces_of_unary {i unary : Instruction Float} {old : Code Float} (hi : i.isLive = true)
    (hunary : unary.Drawn s shape) (harity : unary.arity = 1) (hne : old ≠ [])
    (hold : ∀ j ∈ old, j.isSeparator = false)
    (hdepth : ∀ d, Code.depthThrough d old = Code.depthBehind d i) :
    Code.Replaces [i, unary] old where
  ne_nil := hne
  oldInTree := hold
  newInTree := by simp [Code.isSeparator_of_isLive hi, Code.isSeparator_of_isLive hunary.isLive]
  depth d e h := by
    rw [hdepth] at h
    obtain ⟨below, rfl⟩ := Code.exists_depthBehind hi h
    rw [Code.depthThrough_cons, h, Option.bind_some, Code.depthThrough_singleton,
      Code.depthBehind_unary hunary.isLive hunary.inRange.notAggregate harity]

/-- **An edit passes over an instruction, writes code in the place of other code of the same tree that
does the same to the stack, or puts a random tree in the place of a subtree.** -/
theorem replaces (h : Edit s shape y z) : z.code = y.code ∨
    (∃ front old new back, y.code = front ++ old ++ back ∧ z.code = front ++ new ++ back ∧
      new.Replaces old) ∨
    ∃ before i rest tree, y = (before, i :: rest) ∧ i.isLive = true ∧
      Draw.DrawnTree s shape tree ∧
      z = (tree.reverse ++ before.drop (Code.reachOf i before), rest) := by
  -- one instruction or two are replaced where the code that is done ends
  have hinstead : ∀ (before old new rest : Code Float), new.Replaces old →
      ∃ front old' new' back, Place.code (before, old ++ rest) = front ++ old' ++ back ∧
        Place.code (new.reverse ++ before, rest) = front ++ new' ++ back ∧ new'.Replaces old' :=
    fun before old new rest hreplaces =>
      ⟨before.reverse, old, new, rest, by simp [Place.code], by simp [Place.code], hreplaces⟩
  cases h with
  | keep => exact .inl (by simp [Place.code])
  | @retune before rest i j hi hj =>
    have hsep : j.isSeparator = false := by
      rw [Instruction.isSeparator, hj.opcode]
      exact Code.isSeparator_of_isLive hi
    refine .inr (.inl (hinstead before [i] [j] rest (replaces_live hi [j]
      (List.forall_mem_singleton.mpr hsep) fun d e he => ?_)))
    rw [Code.depthThrough_singleton, Code.depthBehind_congr hj.opcode, he]
  | @insert before rest i unary hi hallow hunary harity =>
    exact .inr (.inl (hinstead before [i] [i, unary] rest (replaces_of_unary hi hunary harity
      (List.cons_ne_nil i []) (List.forall_mem_singleton.mpr (Code.isSeparator_of_isLive hi))
      fun d => Code.depthThrough_singleton d i)))
  | @fill before rest i next unary hi hnext hallow hunary harity =>
    -- the placeholder goes, too, so that two instructions are replaced at once
    refine .inr (.inl (hinstead before [i, next] [i, unary] rest (replaces_of_unary hi hunary
      harity (List.cons_ne_nil i [next]) ?_ fun d => ?_)))
    · simp [Code.isSeparator_of_isLive hi, (Code.isSpecial_of_isNoOp hnext).2]
    · rw [Code.depthThrough_cons]
      simp [Code.depthBehind_noOp hnext]
  | @drop before rest i hi ha harity hspare =>
    refine .inr (.inl (hinstead before [i] [Instruction.noOp] rest (replaces_live hi _
      (by simp; rfl) fun d e he => ?_)))
    rw [Code.depthBehind_of_not_isSeparator (Code.isSeparator_of_isLive hi)] at he
    obtain ⟨below, rfl, rfl⟩ := (Code.depthAfter_eq_some_iff hi ha).mp he
    rw [Code.depthThrough_singleton, Code.depthBehind_noOp Instruction.isNoOp_noOp, harity]
  | @redraw before rest i j hi ha hj harity =>
    refine .inr (.inl (hinstead before [i] [j] rest (replaces_live hi [j]
      (List.forall_mem_singleton.mpr (Code.isSeparator_of_isLive hj.isLive)) fun d e he => ?_)))
    rw [Code.depthThrough_singleton,
      Code.depthBehind_of_arity hi hj.isLive ha hj.inRange.notAggregate harity, he]
  | @graft before rest tree i hi htree => exact .inr (.inr ⟨before, i, rest, tree, rfl, hi, htree, rfl⟩)

/-- The subtree that ends with a live instruction lies inside its tree and leaves one value more
than it finds. -/
lemma span_at {before rest : Code Float} {i : Instruction Float}
    (h : IsForest n (Place.code (before, i :: rest))) (hi : i.isLive = true) :
    (∀ j ∈ (before.take (Code.reachOf i before)).reverse ++ [i], j.isSeparator = false) ∧
      ∃ d below, Code.depthThrough 0 before.reverse = some d ∧
        Code.depthThrough 0 (before.drop (Code.reachOf i before)).reverse = some below ∧
        Code.depthBehind d i = some (below + 1) := by
  obtain ⟨hscan, -, -⟩ := Code.isForest_iff.mp h
  rw [Place.code, Code.depthThrough_append] at hscan
  obtain ⟨d, hd, hscan⟩ := Option.bind_eq_some_iff.mp hscan
  obtain ⟨e, he, -⟩ := Option.bind_eq_some_iff.mp hscan
  obtain ⟨hspan, below, hbelow, rfl⟩ := Code.reachOf_in_forest hi hd he
  refine ⟨fun j hj => ?_, d, below, hd, hbelow, he⟩
  rcases List.mem_append.mp hj with hj | hj
  · exact hspan j (List.mem_reverse.mp hj)
  · rw [List.mem_singleton.mp hj]
    exact Code.isSeparator_of_isLive hi

/-- A tree in the place of the subtree that ends with a live instruction. -/
lemma isForest_grafted {before rest tree : Code Float} {i : Instruction Float}
    (h : IsForest n (Place.code (before, i :: rest))) (hi : i.isLive = true)
    (htree : Draw.DrawnTree s shape tree) :
    IsForest n (Place.code (tree.reverse ++ before.drop (Code.reachOf i before), rest)) := by
  have hback := IsForest.ne_nil h (Code.isSeparator_of_isLive hi)
  obtain ⟨hspan, d, below, hd, hbelow, he⟩ := span_at h hi
  have hparts := h
  rw [Place.code_split before rest i (Code.reachOf i before)] at hparts
  have hsep := (Code.isWellFormed_iff.mp htree.isWellFormed).1
  have hwhole : Code.depthThrough 0 before.reverse = Code.depthThrough below
      (before.take (Code.reachOf i before)).reverse := by
    conv_lhs => rw [← List.take_append_drop (Code.reachOf i before) before]
    rw [List.reverse_append, Code.depthThrough_append, hbelow, Option.bind_some]
  have hdepth : ∀ d' e',
      Code.depthThrough 0 (before.drop (Code.reachOf i before)).reverse = some d' →
      Code.depthThrough d' ((before.take (Code.reachOf i before)).reverse ++ [i]) = some e' →
      Code.depthThrough d' tree = some e' := by
    intro d' e' hd' he'
    rw [hbelow] at hd'
    cases hd'
    rw [Code.depthThrough_append, ← hwhole, hd, Option.bind_some, Code.depthThrough_singleton,
      he] at he'
    cases he'
    rw [Code.depthThrough_eq hsep, htree.pushes below]
  have hcount : Code.separators tree
      = Code.separators ((before.take (Code.reachOf i before)).reverse ++ [i]) := by
    rw [Code.separators_eq_zero hsep, Code.separators_eq_zero hspan]
  have hforest := hparts.replace tree hdepth hcount hback
  simpa [Place.code] using hforest

/-- **An edit leaves a forest a forest with as many trees.** -/
theorem isForest (h : Edit s shape y z) (hy : IsForest n y.code) : IsForest n z.code := by
  obtain hcode | ⟨front, old, new, back, hcode, hnew, hreplaces⟩ |
    ⟨before, i, rest, tree, rfl, hi, htree, rfl⟩ := h.replaces
  · rwa [hcode]
  · rw [hcode] at hy
    rw [hnew]
    exact hy.replaces hreplaces
  · exact isForest_grafted hy hi htree

/-- What stands around a place after one instruction was written over another. -/
lemma mem_instead {before rest : Code Float} {i j k : Instruction Float}
    (hk : k ∈ Place.code (j :: before, rest)) : k = j ∨ k ∈ Place.code (before, i :: rest) := by
  rw [Place.mem_code] at hk ⊢
  rcases hk with hk | hk
  · rcases List.mem_cons.mp hk with rfl | hk
    · exact .inl rfl
    · exact .inr (.inl hk)
  · exact .inr (.inr (List.mem_cons_of_mem _ hk))

/-- A drawn instruction in the place of one of the same arity is allowed, or a complement like
that one. -/
lemma isAllowed_or_retuned {i j : Instruction Float} (ha : i.isAggregate = false)
    (hj : j.Drawn s shape) (harity : j.arity = i.arity) : j.IsAllowed s ∨ i.Retuned shape j := by
  by_cases hone : j.arity = 1
  · have hnot : ∀ {k : Instruction Float}, k.isAggregate = false → k.arity = 1 →
        k.opcode = .not := by
      rintro ⟨op, v, l, w⟩ hk hk'
      cases op <;> simp_all [Instruction.isAggregate, Instruction.arity, Opcode.arity]
    refine .inr ⟨?_, fun _ => hj.inRange⟩
    rw [hnot hj.inRange.notAggregate hone, hnot ha (harity ▸ hone)]
  · exact .inl (Instruction.isAllowed_of_arity hone)

/-- What an edit writes was there before, is drawn and allowed, or comes from a change in place. -/
theorem mem (h : Edit s shape y z) {j : Instruction Float} (hj : j ∈ z.code) :
    j ∈ y.code ∨ j = Instruction.noOp ∨ (j.Drawn s shape ∧ j.IsAllowed s) ∨
      ∃ i ∈ y.code, i.Retuned shape j := by
  have hhead : ∀ {before rest : Code Float} {i : Instruction Float},
      i ∈ Place.code (before, i :: rest) := Place.mem_code.mpr (.inr List.mem_cons_self)
  cases h with
  | keep =>
    rcases mem_instead hj with rfl | hj
    · exact .inl hhead
    · exact .inl hj
  | retune hi hj' =>
    rcases mem_instead hj with rfl | hj
    · exact .inr (.inr (.inr ⟨_, hhead, hj'⟩))
    · exact .inl hj
  | @insert before rest i unary hi hallow hunary harity =>
    simp only [Place.mem_code, List.mem_cons] at hj ⊢
    rcases hj with (rfl | rfl | hj) | hj
    · exact .inr (.inr (.inl ⟨hunary, fun _ => hallow⟩))
    · exact .inl (.inr (.inl rfl))
    · exact .inl (.inl hj)
    · exact .inl (.inr (.inr hj))
  | @fill before rest i next unary hi hnext hallow hunary harity =>
    simp only [Place.mem_code, List.mem_cons] at hj ⊢
    rcases hj with (rfl | rfl | hj) | hj
    · exact .inr (.inr (.inl ⟨hunary, fun _ => hallow⟩))
    · exact .inl (.inr (.inl rfl))
    · exact .inl (.inl hj)
    · exact .inl (.inr (.inr (.inr hj)))
  | drop hi ha harity hspare =>
    rcases mem_instead hj with rfl | hj
    · exact .inr (.inl rfl)
    · exact .inl hj
  | redraw hi ha hj' harity =>
    rcases mem_instead hj with rfl | hj
    · rcases isAllowed_or_retuned ha hj' harity with hallowed | hretuned
      · exact .inr (.inr (.inl ⟨hj', hallowed⟩))
      · exact .inr (.inr (.inr ⟨_, hhead, hretuned⟩))
    · exact .inl hj
  | @graft before rest tree i hi htree =>
    simp only [Place.mem_code, List.mem_append, List.mem_reverse] at hj ⊢
    rcases hj with (hj | hj) | hj
    · exact .inr (.inr (.inl ⟨htree.drawn j hj, htree.allowed j hj⟩))
    · exact .inl (.inl (List.mem_of_mem_drop hj))
    · exact .inl (.inr (List.mem_cons_of_mem _ hj))

/-- What edits hand down is kept. -/
lemma forall_mem {P : Instruction Float → Prop} (h : Edit s shape y z) (hP : Heritable s shape P)
    (hy : ∀ i ∈ y.code, P i) : ∀ j ∈ z.code, P j := by
  intro j hj
  rcases h.mem hj with hj | rfl | ⟨hdrawn, hallowed⟩ | ⟨i, hi, hij⟩
  · exact hy j hj
  · exact hP.noOp
  · exact hP.drawn hdrawn hallowed
  · exact hP.retuned hij (hy i hi)

/-- The same for a chain of edits. -/
lemma isForest_chain (h : ReflTransGen (Edit s shape) y z) (hy : IsForest n y.code) :
    IsForest n z.code := by
  induction h with
  | refl => exact hy
  | tail _ hedit ih => exact hedit.isForest ih

lemma forall_mem_chain {P : Instruction Float → Prop} (h : ReflTransGen (Edit s shape) y z)
    (hP : Heritable s shape P) (hy : ∀ i ∈ y.code, P i) : ∀ i ∈ z.code, P i := by
  induction h with
  | refl => exact hy
  | tail _ hedit ih => exact hedit.forall_mem hP ih

end Edit

/-- **Mutation leaves a forest a forest with as many trees**, and what edits hand down. -/
theorem returns_mutated (ctx : Context Float) (p : Float) {f : Forest Float} {n : Nat}
    (hf : IsForest n f.code) : Returns (mutated ctx p f) fun g => IsForest n g.code ∧
      g.outputs = f.outputs ∧ g.fitness? = none ∧
      ∀ P, Heritable ctx.settings ctx.shape P → (∀ i ∈ f.code, P i) → ∀ i ∈ g.code, P i := by
  refine (returns_mutatePass p [] f.code).bind fun code hcode => .pure ?_
  have hend : Place.code (code.reverse, []) = code := by simp [Place.code]
  refine ⟨?_, rfl, rfl, fun P hP hmem => ?_⟩
  · rw [← hend]
    exact Edit.isForest_chain hcode hf
  · rw [← hend]
    exact Edit.forall_mem_chain hcode hP hmem

end Forest

end FuzzyForest
