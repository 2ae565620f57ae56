/-
Forests that their texts show.

What is drawn, changed in place or cut and joined by an operation is shown by its tokens, down to
the weights of placeholders and separators.  No descendant of random forests has therefore anything
that its text would not show.
-/
import FuzzyForest.Proofs.ArisingForests
import FuzzyForest.Proofs.Tokens

namespace FuzzyForest

open Act (Gives)

/-! ### Draws -/

namespace Draw

open Instruction Mutation

variable {s : ModelSettings} {shape : Shape}

lemma gives_terminal : Gives (terminal s shape) fun node => ∀ w, (node w).IsShown := by
  -- whatever the roll is, it decides between the three terminals
  refine .ite (fun _ => (Gives.any _).bind fun roll _ => ?_) fun _ =>
    (Gives.any _).bind fun roll _ => ?_
  all_goals
    refine .ite (fun _ => ?_) fun _ => .ite (fun _ => ?_) fun _ => ?_
    · exact (Gives.any _).bind fun l _ => (Gives.any _).bind fun n _ =>
        .pure fun w => (isWritable_pastInput n l w).isShown rfl
    · exact (Gives.any _).bind fun l _ => (Gives.any _).bind fun n _ =>
        .pure fun w => (isWritable_pastOutput n l w).isShown rfl
    · exact (Gives.any _).bind fun n _ => .pure fun w => (isWritable_input n w).isShown rfl

/-- An operator that can be drawn is shown, whatever its weight. -/
lemma isShown_operator {op : Opcode} (hop : op = .not ∨ op ∈ Opcode.binary) (w : Float) :
    (plain op w).IsShown := by
  have hkind : op ≠ .processAll ∧ op.isSpecial = false := by
    revert hop
    cases op <;> decide
  exact (isWritable_plain op hkind.1 w).isShown (by simp [plain, isLive, hkind.2])

lemma gives_binary : Gives binary fun node => ∀ w, (node w).IsShown := by
  refine (Gives.any _).bind fun n _ => .pure fun w => isShown_operator (.inr ?_) w
  rw [List.getD_eq_getElem?_getD]
  cases h : Opcode.binary[n]? with
  | none => decide
  | some op => exact List.mem_of_getElem? h

lemma gives_weighted {draw : Draw (Float → Instruction Float)}
    (h : Gives draw fun node => ∀ w, (node w).IsShown) : Gives (weighted draw) IsShown :=
  h.bind fun _ hnode => (Gives.any _).bind fun w _ => .pure (hnode w)

lemma gives_instruction (p : Float) : Gives (instruction s shape p) IsShown := by
  refine gives_weighted ((Gives.any _).bind fun x _ => .ite (fun _ => gives_terminal) fun _ => ?_)
  refine (Gives.any _).bind fun y _ => .ite (fun _ => ?_) fun _ => gives_binary
  exact .pure fun w => isShown_operator (.inl rfl) w

lemma gives_ofArity (arity : ℕ) : Gives (ofArity s shape arity) IsShown := by
  refine gives_weighted ?_
  match arity with
  | 0 => exact gives_terminal
  | 1 => exact .pure fun w => isShown_operator (.inl rfl) w
  | _ + 2 => exact gives_binary

/-! ### Trees -/

/-- The operands come before their node. -/
lemma isShown_node {operands : Code Float} {i : Instruction Float}
    (h : ∀ j ∈ operands, j.IsShown) (hi : i.IsShown) : ∀ j ∈ operands ++ [i], j.IsShown :=
  List.forall_mem_append.mpr ⟨h, List.forall_mem_singleton.mpr hi⟩

lemma gives_repeated {draw : Draw (Code Float)} (h : Gives draw fun code => ∀ i ∈ code, i.IsShown)
    (n : ℕ) : Gives (repeated draw n) fun code => ∀ i ∈ code, i.IsShown := by
  induction n with
  | zero => exact .pure nofun
  | succ n ih =>
    exact h.bind fun _ hfirst => ih.bind fun _ hrest =>
      .pure (List.forall_mem_append.mpr ⟨hfirst, hrest⟩)

lemma gives_subtree (levels : ℕ) (p : Float) :
    Gives (subtree s shape levels p) fun code => ∀ i ∈ code, i.IsShown := by
  induction levels generalizing p with
  | zero => exact (gives_instruction p).bind fun _ hi => .pure (List.forall_mem_singleton.mpr hi)
  | succ levels ih =>
    exact (gives_instruction p).bind fun i hi => (gives_repeated (ih _) i.arity).bind fun _ h =>
      .pure (isShown_node h hi)

/-- Everything in a drawn tree is shown. -/
lemma gives_tree : Gives (tree s shape) fun code => ∀ i ∈ code, i.IsShown :=
  (gives_instruction _).bind fun i hi => (gives_repeated (gives_subtree _ _) i.arity).bind
    fun _ h => .pure (isShown_node h hi)

/-! ### Changes in place -/

variable {i : Instruction Float}

lemma gives_reweigh (hi : i.IsShown) (hlive : i.isLive = true) : Gives (reweigh i) IsShown := by
  refine (Gives.any _).bind fun _ _ => (Gives.any _).bind fun w _ => .pure ?_
  exact IsWritable.isShown ⟨hi.notAggregate, hi.operand, hi.lag⟩ hlive

lemma gives_reroll (hi : i.IsShown) (hlive : i.isLive = true) {old low high : ℕ}
    {put : ℕ → Instruction Float} (hput : ∀ n, (put n).IsShown) :
    Gives (reroll i old low high put) IsShown :=
  .ite (fun _ => gives_reweigh hi hlive) fun _ => (Gives.any _).bind fun _ _ => .pure (hput _)

/-- Terminals have operands. -/
lemma gives_rerollOperand (hi : i.IsShown) (hlive : i.isLive = true)
    (hop : i.opcode.isTerminal = true) (count : ℕ) : Gives (rerollOperand i count) IsShown := by
  refine gives_reroll hi hlive fun n => IsWritable.isShown ⟨hi.notAggregate, ?_, hi.lag⟩ hlive
  intro hnot
  rw [hop] at hnot
  cases hnot

/-- Lagged terminals have lags. -/
lemma gives_rerollLag (hi : i.IsShown) (hlive : i.isLive = true)
    (hop : i.opcode = .pastInput ∨ i.opcode = .pastOutput) (horizon : ℕ) :
    Gives (rerollLag i horizon) IsShown := by
  refine gives_reroll hi hlive fun n => IsWritable.isShown ⟨hi.notAggregate, hi.operand, ?_⟩ hlive
  intro hinput houtput
  rcases hop with hop | hop
  · exact absurd hop hinput
  · exact absurd hop houtput

/-- A change in place does not hide anything. -/
lemma gives_mutated (hi : i.IsShown) (hlive : i.isLive = true) :
    Gives (Draw.mutated s shape i) IsShown := by
  refine (Gives.any _).bind fun roll _ => .ite (fun _ => gives_reweigh hi hlive) fun _ => ?_
  split
  · rename_i hop
    exact gives_rerollOperand hi hlive (by rw [hop]; rfl) _
  · rename_i hop
    exact .ite (fun _ => gives_rerollLag hi hlive (.inl hop) _) fun _ =>
      gives_rerollOperand hi hlive (by rw [hop]; rfl) _
  · rename_i hop
    exact .ite (fun _ => gives_rerollLag hi hlive (.inr hop) _) fun _ =>
      gives_rerollOperand hi hlive (by rw [hop]; rfl) _
  · exact gives_reweigh hi hlive

end Draw

namespace Forest

variable {s : ModelSettings} {shape : Shape} {f g : Forest Float}

/-! ### Mutation -/

lemma gives_changed {i : Instruction Float} (hi : i.IsShown) (hlive : i.isLive = true)
    (before rest : Code Float) : Gives (changed s shape before i rest) Instruction.IsShown :=
  .ite (fun _ => Draw.gives_mutated hi hlive) fun _ =>
    .ite (fun _ => .pure (Instruction.isShown_special .noOp nofun)) fun _ =>
      Draw.gives_ofArity _

/-- A pass over code that is shown leaves nothing that is not. -/
lemma gives_mutatePass (p : Float) {before rest : Code Float} (hbefore : ∀ i ∈ before, i.IsShown)
    (hrest : ∀ i ∈ rest, i.IsShown) :
    Gives (mutatePass s shape p before rest) fun code => ∀ i ∈ code, i.IsShown := by
  induction h : rest.length using Nat.strong_induction_on generalizing before rest with
  | _ n ih =>
    cases rest with
    | nil =>
      rw [mutatePass]
      exact .pure fun i hi => hbefore i (List.mem_reverse.mp hi)
    | cons i rest =>
      obtain ⟨hi, hrest⟩ := List.forall_mem_cons.mp hrest
      rw [List.length_cons] at h
      -- the pass goes on behind the instruction, or one further
      have goOn : ∀ {before' rest' : Code Float}, (∀ j ∈ before', j.IsShown) →
          (∀ j ∈ rest', j.IsShown) → rest'.length < n →
          Gives (mutatePass s shape p before' rest') fun code => ∀ j ∈ code, j.IsShown :=
        fun hbefore' hrest' hlt => ih _ hlt hbefore' hrest' rfl
      have hkeep : ∀ {j : Instruction Float}, j.IsShown →
          Gives (mutatePass s shape p (j :: before) rest) fun code => ∀ j ∈ code, j.IsShown :=
        fun hj => goOn (List.forall_mem_cons.mpr ⟨hj, hbefore⟩) hrest (by omega)
      rw [mutatePass]
      refine .ite (fun _ => hkeep hi) fun hlive => ?_
      have hlive : i.isLive = true := by simpa using hlive
      refine (Gives.any _).bind fun x _ => .ite (fun _ => hkeep hi) fun _ => ?_
      refine (Gives.any _).bind fun roll _ => .ite (fun _ => ?_) fun _ =>
        .ite (fun _ => ?_) fun _ => (Gives.any _).bind fun y _ => .ite (fun _ => ?_) fun _ => ?_
      · exact (Draw.gives_mutated hi hlive).bind fun j hj => hkeep hj
      · refine (Draw.gives_ofArity 1).bind fun unary hunary => ?_
        have hbehind : ∀ j ∈ unary :: i :: before, j.IsShown :=
          List.forall_mem_cons.mpr ⟨hunary, List.forall_mem_cons.mpr ⟨hi, hbefore⟩⟩
        cases rest with
        | nil => exact goOn hbehind (List.forall_mem_nil _) (by rw [List.length_nil]; omega)
        | cons next rest =>
          refine .ite (fun _ => goOn hbehind (List.forall_mem_cons.mp hrest).2 ?_) fun _ =>
            goOn hbehind hrest (by omega)
          rw [List.length_cons] at h
          omega
      · exact (gives_changed hi hlive before rest).bind fun j hj => hkeep hj
      · refine Draw.gives_tree.bind fun tree htree => goOn ?_ hrest (by omega)
        refine List.forall_mem_append.mpr ⟨fun j hj => htree j (List.mem_reverse.mp hj), ?_⟩
        exact fun j hj => hbefore j (List.mem_of_mem_drop hj)

/-! ### Forests -/

/-- The text of the forest shows everything in its buffer. -/
def IsShown (f : Forest Float) : Prop := ∀ i ∈ f.code, i.IsShown

lemma isShown_separator : (Instruction.separator : Instruction Float).IsShown :=
  Instruction.isShown_special .separator nofun

lemma mem_closed {code : Code Float} {i : Instruction Float} (h : i ∈ closed code) :
    i ∈ code ∨ i = Instruction.separator := by
  rw [closed] at h
  split at h
  · simpa using h
  · exact .inl h

lemma isShown_ofCode {code : Code Float} (h : ∀ i ∈ code, i.IsShown) (records : ℕ) :
    (ofCode records code).IsShown := by
  intro i hi
  rcases mem_closed hi with hi | rfl
  · exact h i hi
  · exact isShown_separator

lemma isShown_random {ctx : Context Float} {source source' : Source}
    (h : random ctx source = (.ok f, source')) : f.IsShown := by
  have htree : Gives (do return (← Draw.tree ctx.settings ctx.shape) ++ [Instruction.separator])
      fun code => ∀ i ∈ code, i.IsShown :=
    Draw.gives_tree.bind fun _ htree => .pure (Draw.isShown_node htree isShown_separator)
  have hforest : Gives (random ctx) IsShown :=
    (Draw.gives_repeated htree _).bind fun _ hcode => .pure (isShown_ofCode hcode _)
  exact hforest.ok h

lemma IsShown.mutated (hf : f.IsShown) {ctx : Context Float} {p : Float} {source source' : Source}
    (h : mutated ctx p f source = (.ok g, source')) : g.IsShown := by
  have hpass : Gives (Forest.mutated ctx p f) IsShown :=
    (gives_mutatePass p (List.forall_mem_nil _) hf).bind fun _ hcode => .pure hcode
  exact hpass.ok h

lemma isShown_slice {code : Code Float} (h : ∀ i ∈ code, i.IsShown) (range : ℕ × ℕ) :
    ∀ i ∈ code.slice range, i.IsShown :=
  fun i hi => h i (List.mem_of_mem_take (List.mem_of_mem_drop hi))

lemma isShown_live {code : Code Float} (h : ∀ i ∈ code, i.IsShown) : ∀ i ∈ live code, i.IsShown :=
  fun i hi => h i (List.mem_filter.mp hi).1

lemma isShown_treeCopy {tree : Code Float} (h : ∀ i ∈ tree, i.IsShown) :
    ∀ i ∈ treeCopy tree, i.IsShown :=
  Draw.isShown_node (isShown_live h) isShown_separator

/-- What is grafted comes from the two forests. -/
lemma Site.isShown_graft {x y : Site} (hx : ∀ i ∈ x.code, i.IsShown)
    (hy : ∀ i ∈ y.code, i.IsShown) : ∀ i ∈ x.graft y, i.IsShown := by
  refine List.forall_mem_append.mpr ⟨List.forall_mem_append.mpr ⟨?_, ?_⟩, ?_⟩
  · exact isShown_live (isShown_slice hx _)
  · exact isShown_live (isShown_slice hy _)
  · exact isShown_treeCopy (isShown_slice hx _)

lemma IsShown.crossed {a b c d : Forest Float} (ha : a.IsShown) (hb : b.IsShown)
    {ctx : Context Float} {p : Float} {s t : Session}
    (h : crossed ctx p a b s = (.ok (c, d), t)) : c.IsShown ∧ d.IsShown := by
  rcases crossed_cases h with ⟨rfl, rfl⟩ | ⟨son, daughter, _, -, hdraw, -, rfl, rfl⟩
  · exact ⟨ha, hb⟩
  · refine (gives_crossTrees (P := fun code => ∀ i ∈ code, i.IsShown) nofun
      (fun hfront hback => List.forall_mem_append.mpr ⟨hfront, hback⟩) ?_ _ _ _).ok hdraw
    intro start1 stop1 start2 stop2
    refine (gives_crossTree _ _ _ _ _ _ _ _).mono ?_
    rintro r (rfl | ⟨x, y, hx, hy, rfl⟩)
    · exact ⟨isShown_treeCopy (isShown_slice ha _), isShown_treeCopy (isShown_slice hb _)⟩
    · have hx : ∀ i ∈ x.code, i.IsShown := hx ▸ ha
      have hy : ∀ i ∈ y.code, i.IsShown := hy ▸ hb
      exact ⟨Site.isShown_graft hx hy, Site.isShown_graft hy hx⟩

lemma IsShown.compact (hf : f.IsShown) : f.compact.IsShown :=
  fun i hi => hf i (List.mem_filter.mp hi).1

/-- New weights are given to live instructions only. -/
lemma isShown_reweighted {code : Code Float} (h : ∀ i ∈ code, i.IsShown) (ws : List Float) :
    ∀ i ∈ reweighted code ws, i.IsShown := by
  induction code generalizing ws with
  | nil => exact nofun
  | cons i rest ih =>
    obtain ⟨hi, hrest⟩ := List.forall_mem_cons.mp h
    cases hlive : i.isLive with
    | false =>
      simp only [reweighted, hlive, Bool.false_eq_true, if_false]
      exact List.forall_mem_cons.mpr ⟨hi, ih hrest ws⟩
    | true =>
      cases ws with
      | nil => simpa only [reweighted, hlive, if_true] using h
      | cons w ws =>
        simp only [reweighted, hlive, if_true]
        refine List.forall_mem_cons.mpr ⟨?_, ih hrest ws⟩
        exact Instruction.IsWritable.isShown ⟨hi.notAggregate, hi.operand, hi.lag⟩ hlive

lemma IsShown.setWeights (hf : f.IsShown) {ws : List Float} (h : f.setWeights ws = .ok g) :
    g.IsShown := by
  obtain rfl := eq_of_setWeights h
  exact isShown_reweighted hf ws

/-- **The text of a descendant of random forests shows everything in it.** -/
theorem Reachable.isShown {ctx : Context Float} (h : Reachable ctx f) : f.IsShown := by
  induction h with
  | random h => exact isShown_random h
  | mutated _ h ih => exact ih.mutated h
  | son _ _ h iha ihb => exact (iha.crossed ihb h).1
  | daughter _ _ h iha ihb => exact (iha.crossed ihb h).2
  | compact _ ih => exact ih.compact
  | setWeights _ h ih => exact ih.setWeights h
  | computed _ h ih =>
    intro i hi
    rw [(computeFitness_code h).1] at hi
    exact ih i hi

/-- A forest that was read from tokens alone is shown by its text. -/
lemma isShown_parse {records : ℕ} {text : String}
    (h : ∀ word ∈ Text.words text, Instruction.tokenError? word = none) :
    (parse records text).IsShown := by
  refine isShown_ofCode (fun i hi => ?_) records
  obtain ⟨word, hword, rfl⟩ := List.mem_map.mp hi
  have htoken := h word hword
  rw [Instruction.tokenError?] at htoken
  split at htoken
  · rename_i j hj
    rw [Instruction.ofTokenOrNoOp, hj]
    exact (Instruction.isShown_of_ofToken hj).1
  · cases htoken

end Forest

end FuzzyForest
