/-
What draws give.

Every draw of an instruction or a tree ends as soon as its source gives words that can be used, and
what it gives is in range: `Instruction.Drawn` says so of one instruction, `Draw.returns_tree` of a
whole tree, which in addition pushes exactly one value and holds nothing that the settings rule out.
-/
import FuzzyForest.Proofs.Depth
import FuzzyForest.Proofs.Triple
import FuzzyForest.Proofs.UnitDraw
import FuzzyForest.Rule.Mutation

namespace FuzzyForest

open Act (Returns)
open Growth

/-! ### Instructions in range -/

/-- What an instruction may read of data of some shape.  Where there is no column to choose from,
the first one stands for it. -/
structure Instruction.InRange {α : Type} (shape : Shape) (i : Instruction α) : Prop where
  notAggregate : i.isAggregate = false
  input : i.opcode = .input ∨ i.opcode = .pastInput → i.operand < max shape.inputs 1
  target : i.opcode = .pastOutput → i.operand < max shape.targets 1
  lag : i.opcode = .pastInput ∨ i.opcode = .pastOutput → 1 ≤ i.lag

/-- Placeholders and separators read nothing. -/
lemma Instruction.inRange_of_not_isLive {α : Type} {shape : Shape} {i : Instruction α}
    (h : i.isLive = false) : i.InRange shape := by
  rcases i with ⟨op, v, l, w⟩
  cases op with
  | noOp | separator => exact ⟨rfl, by simp, nofun, by simp⟩
  | _ => cases h

/-- A change in place keeps the kind of an instruction, and what it reads in range. -/
structure Instruction.Retuned {α : Type} (shape : Shape) (i j : Instruction α) : Prop where
  opcode : j.opcode = i.opcode
  inRange : i.InRange shape → j.InRange shape

/-- A drawn instruction is live and reads in range, its lag keeps to the horizon of its kind, and
its weight is a unit draw. -/
structure Instruction.Drawn (s : ModelSettings) (shape : Shape) (i : Instruction Float) :
    Prop where
  isLive : i.isLive = true
  inRange : i.InRange shape
  pastInput : i.opcode = .pastInput →
    0 < s.pastInputLimit ∧ i.lag ≤ max 1 (s.pastInputLimit - 1)
  pastOutput : i.opcode = .pastOutput →
    0 < s.pastOutputLimit ∧ i.lag ≤ max 1 (s.pastOutputLimit - 1)
  weight : ∃ w, i.weight = Draw.unitOf w

/-- An instruction that the settings allow. -/
def Instruction.IsAllowed {α : Type} (s : ModelSettings) (i : Instruction α) : Prop :=
  i.opcode = .not → s.allowNot = true

/-- Only complements can be forbidden. -/
lemma Instruction.isAllowed_of_arity {α : Type} {s : ModelSettings} {i : Instruction α}
    (h : i.arity ≠ 1) : i.IsAllowed s := by
  intro hop
  rw [arity, hop] at h
  exact absurd rfl h

namespace Draw

/-! ### Numbers -/

lemma returns_word : Returns word fun _ => True := fun _ _ => trivial

lemma returns_unit : Returns unit fun x => ∃ w, x = unitOf w :=
  returns_word.bind fun w _ => .pure ⟨w, rfl⟩

lemma returns_belowWithin {range : Nat} (hr : 0 < range) (fuel : Nat) :
    Returns (belowWithin range fuel) (· < range) := by
  induction fuel with
  | zero => exact fun _ _ => rfl
  | succ fuel ih =>
    refine returns_word.bind fun w _ => ?_
    split
    · rename_i n hn
      exact .pure (lt_of_accept? hr hn)
    · exact ih

lemma returns_between {low high : Nat} (h : low < high) :
    Returns (between low high) fun n => low ≤ n ∧ n < high := by
  rw [between, if_pos h]
  have hpatience : Returns patience fun _ => True := fun _ _ => trivial
  refine hpatience.bind fun fuel _ => ?_
  refine (returns_belowWithin (by omega) fuel).bind fun n hn => .pure ?_
  omega

lemma returns_index (count : Nat) : Returns (index count) (· < max count 1) := by
  refine .ite (fun h => .pure ?_) fun h => ?_
  · omega
  · refine (returns_between (by omega)).mono fun n hn => ?_
    omega

lemma returns_lag (horizon : Nat) :
    Returns (lag horizon) fun l => 1 ≤ l ∧ l ≤ max 1 (horizon - 1) := by
  refine .ite (fun h => ?_) fun h => .pure ?_
  · refine (returns_between h).mono fun n hn => ?_
    omega
  · omega

/-! ### Instructions -/

variable (s : ModelSettings) (shape : Shape)

/-- Operators read nothing. -/
lemma drawn_plain {op : Opcode} (hop : 0 < op.arity) (ha : op ≠ .processAll) (w : UInt64) :
    (Instruction.plain op (unitOf w)).Drawn s shape := by
  refine ⟨?_, ⟨?_, ?_, ?_, ?_⟩, ?_, ?_, w, rfl⟩
  · cases op <;> simp_all [Instruction.plain, Instruction.isLive, Opcode.isSpecial, Opcode.arity]
  · exact decide_eq_false ha
  all_goals
    intro h
    cases op <;> simp_all [Instruction.plain, Opcode.arity]

lemma drawn_input {n : Nat} (hn : n < max shape.inputs 1) (w : UInt64) :
    (Instruction.input n (unitOf w)).Drawn s shape :=
  ⟨rfl, ⟨rfl, fun _ => hn, nofun, by simp [Instruction.input]⟩, nofun, nofun, w, rfl⟩

lemma drawn_pastInput {n l : Nat} (hlimit : 0 < s.pastInputLimit) (hn : n < max shape.inputs 1)
    (hl : 1 ≤ l ∧ l ≤ max 1 (s.pastInputLimit - 1)) (w : UInt64) :
    (Instruction.pastInput n l (unitOf w)).Drawn s shape :=
  ⟨rfl, ⟨rfl, fun _ => hn, nofun, fun _ => hl.1⟩, fun _ => ⟨hlimit, hl.2⟩, nofun, w, rfl⟩

lemma drawn_pastOutput {n l : Nat} (hlimit : 0 < s.pastOutputLimit) (hn : n < max shape.targets 1)
    (hl : 1 ≤ l ∧ l ≤ max 1 (s.pastOutputLimit - 1)) (w : UInt64) :
    (Instruction.pastOutput n l (unitOf w)).Drawn s shape :=
  ⟨rfl, ⟨rfl, by simp [Instruction.pastOutput], fun _ => hn, fun _ => hl.1⟩, nofun,
    fun _ => ⟨hlimit, hl.2⟩, w, rfl⟩

/-- A terminal is in range, whatever its weight. -/
lemma returns_terminal : Returns (terminal s shape) fun node =>
    ∀ w, (node (unitOf w)).Drawn s shape ∧ (node (unitOf w)).arity = 0 := by
  have hunit : Returns unit fun _ => True := returns_unit.mono fun _ _ => trivial
  have hfixed : Returns (pure noInputRoll : Draw Float) fun _ => True := .pure trivial
  -- without inputs the roll is fixed; either way it decides between the three terminals
  refine .ite (fun _ => hfixed.bind fun roll _ => ?_) fun _ => hunit.bind fun roll _ => ?_
  all_goals
    refine .ite (fun h => ?_) fun _ => .ite (fun h => ?_) fun _ => ?_
    · exact (returns_lag _).bind fun l hl => (returns_index _).bind fun n hn =>
        .pure fun w => ⟨drawn_pastInput s shape h.2 hn hl w, rfl⟩
    · exact (returns_lag _).bind fun l hl => (returns_index _).bind fun n hn =>
        .pure fun w => ⟨drawn_pastOutput s shape h.2 hn hl w, rfl⟩
    · exact (returns_index _).bind fun n hn => .pure fun w => ⟨drawn_input s shape hn w, rfl⟩

lemma returns_binary : Returns binary fun node =>
    ∀ w, (node (unitOf w)).Drawn s shape ∧ (node (unitOf w)).arity = 2 := by
  refine (returns_between (by decide)).bind fun n hn => .pure fun w => ?_
  have harity : (Opcode.binary.getD n .and).arity = 2 := by
    rw [← Opcode.mem_binary_iff, List.getD_eq_getElem?_getD, List.getElem?_eq_getElem hn.2,
      Option.getD_some]
    exact List.getElem_mem _
  refine ⟨drawn_plain s shape (by omega) ?_ w, harity⟩
  intro h
  rw [h] at harity
  cases harity

lemma drawn_not (w : UInt64) : (Instruction.plain .not (unitOf w)).Drawn s shape :=
  drawn_plain s shape (by decide) (by decide) w

lemma returns_weighted {draw : Draw (Float → Instruction Float)} {Q : Instruction Float → Prop}
    (h : Returns draw fun node => ∀ w, Q (node (unitOf w))) : Returns (weighted draw) Q :=
  h.bind fun node hnode => returns_unit.bind fun x hx => .pure <| by
    obtain ⟨w, rfl⟩ := hx
    exact hnode w

/-- A drawn instruction is in range and allowed; it is a terminal where that is certain, and an
operator where no terminal is drawn. -/
lemma returns_instruction (p : Float) : Returns (instruction s shape p) fun i =>
    i.Drawn s shape ∧ i.IsAllowed s ∧ ((∀ w, unitOf w < p) → i.arity = 0) ∧
      ((∀ w, ¬unitOf w < p) → 0 < i.arity) := by
  refine returns_weighted (returns_unit.bind fun x hx => ?_)
  obtain ⟨v, rfl⟩ := hx
  refine .ite (fun hp => ?_) fun hp => ?_
  · refine (returns_terminal s shape).mono fun node h w => ?_
    exact ⟨(h w).1, Instruction.isAllowed_of_arity (by simp [(h w).2]), fun _ => (h w).2,
      fun hnone => absurd hp (hnone v)⟩
  · refine returns_unit.bind fun y _ => ?_
    refine .ite (fun hnot => ?_) fun _ => ?_
    · exact .pure fun w => ⟨drawn_not s shape w, fun _ => hnot.2, fun h => absurd (h v) hp,
        fun _ => Nat.one_pos⟩
    · refine (returns_binary s shape).mono fun node h w => ?_
      exact ⟨(h w).1, Instruction.isAllowed_of_arity (by simp [(h w).2]),
        fun hall => absurd (hall v) hp, fun _ => by simp [(h w).2]⟩

/-- A drawn instruction has the arity that was asked for. -/
lemma returns_ofArity {arity : Nat} (harity : arity ≤ 2) :
    Returns (ofArity s shape arity) fun i => i.Drawn s shape ∧ i.arity = arity := by
  refine returns_weighted ?_
  match arity with
  | 0 => exact returns_terminal s shape
  | 1 => exact .pure fun w => ⟨drawn_not s shape w, rfl⟩
  | 2 => exact returns_binary s shape
  | _ + 3 => omega

/-! ### Trees -/

/-- A part of a tree: it pushes `n` values and holds nothing but drawn instructions, all of which
are allowed. -/
structure DrawnCode (n : Nat) (code : Code Float) : Prop where
  pushes : Code.Pushes n code
  drawn : ∀ i ∈ code, i.Drawn s shape
  allowed : ∀ i ∈ code, i.IsAllowed s

/-- A random tree; it is no lone terminal where these are forbidden. -/
structure DrawnTree (tree : Code Float) : Prop extends DrawnCode s shape 1 tree where
  nontrivial : s.nontrivial = true → 2 ≤ tree.length

variable {s shape}

lemma DrawnCode.nil : DrawnCode s shape 0 [] := ⟨Code.Pushes.nil, nofun, nofun⟩

lemma DrawnCode.node {i : Instruction Float} {operands : Code Float}
    (h : DrawnCode s shape i.arity operands) (hi : i.Drawn s shape) (hallowed : i.IsAllowed s) :
    DrawnCode s shape 1 (operands ++ [i]) := by
  have hpushes : Code.Pushes (0 + i.arity) operands := (Nat.zero_add _).symm ▸ h.pushes
  refine ⟨hpushes.concat hi.isLive hi.inRange.notAggregate, ?_, ?_⟩
  all_goals
    intro j hj
    rcases List.mem_append.mp hj with hj | hj
  · exact h.drawn j hj
  · rwa [List.mem_singleton.mp hj]
  · exact h.allowed j hj
  · rwa [List.mem_singleton.mp hj]

lemma DrawnCode.append {m n : Nat} {a b : Code Float} (ha : DrawnCode s shape m a)
    (hb : DrawnCode s shape n b) : DrawnCode s shape (m + n) (a ++ b) := by
  refine ⟨ha.pushes.append hb.pushes, ?_, ?_⟩
  all_goals
    intro j hj
    rcases List.mem_append.mp hj with hj | hj
  · exact ha.drawn j hj
  · exact hb.drawn j hj
  · exact ha.allowed j hj
  · exact hb.allowed j hj

/-- Code that pushes a value is not empty. -/
lemma DrawnCode.length_pos {n : Nat} {code : Code Float} (h : DrawnCode s shape n code)
    (hn : 0 < n) : 0 < code.length := by
  refine List.length_pos_iff.mpr ?_
  rintro rfl
  have hdepth := h.pushes 0
  rw [Code.depthFrom_nil, Option.some.injEq] at hdepth
  omega

lemma returns_repeated {draw : Draw (Code Float)} (h : Returns draw (DrawnCode s shape 1))
    (n : Nat) : Returns (repeated draw n) (DrawnCode s shape n) := by
  induction n with
  | zero => exact .pure .nil
  | succ n ih =>
    refine h.bind fun first hfirst => ih.bind fun rest hrest => .pure ?_
    exact Nat.add_comm 1 n ▸ hfirst.append hrest

/-- Below the last level there is nothing but terminals. -/
lemma unitOf_lt_terminalAt (w : UInt64) : unitOf w < terminalAt lastLevel := by
  have hdefined : (terminalAt lastLevel).isNaN = false := by decide +kernel
  have hone : ¬terminalAt lastLevel < (1.0 : Float) := by decide +kernel
  exact (Binary64.lt_or_lt hdefined (unitOf_lt_one w)).resolve_right hone

/-- A subtree at a level pushes one value. -/
lemma returns_subtree {levels : Nat} (hlevels : levels ≤ lastLevel) :
    Returns (subtree s shape levels (terminalAt (lastLevel - levels))) (DrawnCode s shape 1) := by
  induction levels with
  | zero =>
    refine (returns_instruction s shape _).bind fun i hi => .pure ?_
    obtain ⟨hdrawn, hallowed, hterminal, -⟩ := hi
    have hnone : DrawnCode s shape i.arity [] := hterminal unitOf_lt_terminalAt ▸ .nil
    exact hnone.node hdrawn hallowed
  | succ levels ih =>
    have hnext : terminalAt (lastLevel - (levels + 1)) * terminalGrowth
        = terminalAt (lastLevel - levels) := by
      rw [show lastLevel - levels = lastLevel - (levels + 1) + 1 by omega]
      rfl
    refine (returns_instruction s shape _).bind fun i hi => ?_
    rw [hnext]
    exact (returns_repeated (ih (by omega)) i.arity).bind fun operands h =>
      .pure (h.node hi.1 hi.2.1)

/-- **A drawn tree pushes one value, and what it reads is in range.** -/
theorem returns_tree (s : ModelSettings) (shape : Shape) :
    Returns (tree s shape) (DrawnTree s shape) := by
  refine (returns_instruction s shape _).bind fun i hi => ?_
  obtain ⟨hdrawn, hallowed, -, hoperator⟩ := hi
  have h : Returns (subtree s shape (lastLevel - 1) (terminalAt 1)) (DrawnCode s shape 1) :=
    returns_subtree (by decide)
  refine (returns_repeated h i.arity).bind fun operands hoperands =>
    .pure ⟨hoperands.node hdrawn hallowed, fun hs => ?_⟩
  -- the root is no terminal, so that there is an operand below it
  have harity : 0 < i.arity := hoperator fun w => by
    rw [hs, if_pos rfl]
    exact not_unitOf_lt_zero w
  have hlength := hoperands.length_pos harity
  rw [List.length_append, List.length_singleton]
  omega

/-! ### Changes in place -/

open Mutation

lemma returns_freshWeight (old : Float) (fuel : Nat) :
    Returns (freshWeight old fuel) fun x => ∃ w, x = unitOf w := by
  induction fuel with
  | zero => exact fun _ _ => rfl
  | succ fuel ih =>
    refine returns_unit.bind fun x hx => ?_
    exact .ite (fun _ => ih) fun _ => .pure hx

lemma returns_reweigh_eq (i : Instruction Float) :
    Returns (reweigh i) fun j => ∃ w, j = { i with weight := w } := by
  have hpatience : Returns patience fun _ => True := fun _ _ => trivial
  exact hpatience.bind fun fuel _ => (returns_freshWeight i.weight fuel).bind fun w _ =>
    .pure ⟨w, rfl⟩

/-- Another weight does not change what an instruction reads. -/
lemma returns_reweigh (i : Instruction Float) : Returns (reweigh i) (i.Retuned shape) := by
  refine (returns_reweigh_eq i).mono ?_
  rintro - ⟨w, rfl⟩
  exact ⟨rfl, fun hi => ⟨hi.notAggregate, hi.input, hi.target, hi.lag⟩⟩

/-- Another value of a range is put into an instruction, or its weight changes. -/
lemma returns_reroll {i : Instruction Float} {old low high : Nat} {put : Nat → Instruction Float}
    (hput : ∀ n, low ≤ n → n < high → i.Retuned shape (put n)) :
    Returns (reroll i old low high put) (i.Retuned shape) := by
  refine .ite (fun _ => returns_reweigh i) fun h => ?_
  refine (returns_between (by omega)).bind fun n hn => .pure (hput _ ?_ ?_)
  all_goals
    rw [skipping]
    split <;> omega

lemma returns_rerollLag (i : Instruction Float) (horizon : Nat) :
    Returns (rerollLag i horizon) (i.Retuned shape) :=
  returns_reroll fun _ hlow _ =>
    ⟨rfl, fun hi => ⟨hi.notAggregate, hi.input, hi.target, fun _ => hlow⟩⟩

lemma returns_rerollInput {i : Instruction Float} (hop : i.opcode ≠ .pastOutput) :
    Returns (rerollOperand i shape.inputs) (i.Retuned shape) :=
  returns_reroll fun _ _ hn => ⟨rfl, fun hi => ⟨hi.notAggregate,
    fun _ => hn.trans_le (Nat.le_max_left _ _), fun h => absurd h hop, hi.lag⟩⟩

lemma returns_rerollTarget {i : Instruction Float} (hop : i.opcode = .pastOutput) :
    Returns (rerollOperand i shape.targets) (i.Retuned shape) :=
  returns_reroll fun _ _ hn => ⟨rfl, fun hi => ⟨hi.notAggregate, fun h => by simp [hop] at h,
    fun _ => hn.trans_le (Nat.le_max_left _ _), hi.lag⟩⟩

/-- **Every mutation of an instruction is a change in place.** -/
theorem returns_mutated (s : ModelSettings) (shape : Shape) (i : Instruction Float) :
    Returns (Draw.mutated s shape i) (i.Retuned shape) := by
  refine returns_unit.bind fun roll _ => ?_
  refine .ite (fun _ => returns_reweigh i) fun _ => ?_
  split
  · rename_i hop
    exact returns_rerollInput (by simp [hop])
  · rename_i hop
    exact .ite (fun _ => returns_rerollLag i _) fun _ => returns_rerollInput (by simp [hop])
  · rename_i hop
    exact .ite (fun _ => returns_rerollLag i _) fun _ => returns_rerollTarget hop
  · exact returns_reweigh i

/-- An aggregate gets another weight and nothing else. -/
lemma returns_mutated_of_isAggregate (s : ModelSettings) (shape : Shape) {i : Instruction Float}
    (hi : i.isAggregate = true) :
    Returns (Draw.mutated s shape i) fun j => ∃ w, j = { i with weight := w } := by
  refine returns_unit.bind fun roll _ => .ite (fun _ => returns_reweigh_eq i) fun _ => ?_
  rcases i with ⟨op, operand, lag, weight⟩
  obtain rfl : op = .processAll := by simpa [Instruction.isAggregate] using hi
  exact returns_reweigh_eq _

end Draw

end FuzzyForest
