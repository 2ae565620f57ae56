/-
Random growth ends.

`Grown` is the growth of subtrees as it is meant: a node is drawn, its operands are grown one level
below, and nothing says where the levels end.  `Stuck` is growth that comes to a draw which no word
of the source can be used for.  There is nothing else: the probability of a terminal passes one at
the last level, so that every other growth has come to its end there, and drawing a tree with a
fixed number of levels is the same.
-/
import FuzzyForest.Proofs.MutationPass

namespace FuzzyForest

open Growth

namespace Draw

/-! ### Growth without a last level -/

section

variable (s : ModelSettings) (shape : Shape)

/-- So many subtrees that grow at a level, one after the other, where each is a node behind its
operands and these grow one level below.  `depth` is the number of levels that are reached. -/
inductive Grown : (level count : ℕ) → Source → Code Float → Source → (depth : ℕ) → Prop
  | nil {level : ℕ} {source : Source} : Grown level 0 source [] source 0
  | cons {level count d e : ℕ} {node : Instruction Float} {operands rest : Code Float}
    {source t u v : Source}
    (hnode : instruction s shape (terminalAt level) source = (.ok node, t))
    (hoperands : Grown (level + 1) node.arity t operands u d)
    (hrest : Grown level count u rest v e) :
    Grown level (count + 1) source (operands ++ [node] ++ rest) v (max (d + 1) e)

/-- The growth of so many subtrees comes to a node that is not drawn. -/
inductive Stuck : (level count : ℕ) → Source → Prop
  | node {level count : ℕ} {source t : Source}
    (hnode : instruction s shape (terminalAt level) source = (.error .stalled, t)) :
    Stuck level (count + 1) source
  | operands {level count : ℕ} {node : Instruction Float} {source t : Source}
    (hnode : instruction s shape (terminalAt level) source = (.ok node, t))
    (hoperands : Stuck (level + 1) node.arity t) : Stuck level (count + 1) source
  | rest {level count d : ℕ} {node : Instruction Float} {operands : Code Float}
    {source t u : Source}
    (hnode : instruction s shape (terminalAt level) source = (.ok node, t))
    (hoperands : Grown s shape (level + 1) node.arity t operands u d)
    (hrest : Stuck level count u) : Stuck level (count + 1) source

/-- The probability of a terminal at the root, which is nothing where lone terminals are
forbidden. -/
def rootProbability : Float := if s.nontrivial then 0.0 else terminalAt 0

/-- A tree that grows from its root, with so many levels below. -/
inductive GrownTree : Source → Code Float → Source → (depth : ℕ) → Prop
  | root {d : ℕ} {node : Instruction Float} {operands : Code Float} {source t u : Source}
    (hnode : instruction s shape (rootProbability s) source = (.ok node, t))
    (hoperands : Grown s shape 1 node.arity t operands u d) :
    GrownTree source (operands ++ [node]) u d

/-- The growth of a tree comes to a node that is not drawn. -/
inductive StuckTree : Source → Prop
  | root {source t : Source}
    (hnode : instruction s shape (rootProbability s) source = (.error .stalled, t)) :
    StuckTree source
  | operands {node : Instruction Float} {source t : Source}
    (hnode : instruction s shape (rootProbability s) source = (.ok node, t))
    (hoperands : Stuck s shape 1 node.arity t) : StuckTree source

end

variable {s : ModelSettings} {shape : Shape}

/-! ### What grows -/

/-- Growth depends on the source alone. -/
lemma Grown.unique {level count d d' : ℕ} {source u u' : Source} {code code' : Code Float}
    (h : Grown s shape level count source code u d)
    (h' : Grown s shape level count source code' u' d') : code' = code ∧ u' = u ∧ d' = d := by
  induction h generalizing code' u' d' with
  | nil =>
    cases h'
    exact ⟨rfl, rfl, rfl⟩
  | cons hnode _ _ ihoperands ihrest =>
    cases h' with
    | cons hnode' hoperands' hrest' =>
      rw [hnode] at hnode'
      cases hnode'
      obtain ⟨rfl, rfl, rfl⟩ := ihoperands hoperands'
      obtain ⟨rfl, rfl, rfl⟩ := ihrest hrest'
      exact ⟨rfl, rfl, rfl⟩

/-- What has grown was not stuck. -/
lemma Grown.not_stuck {level count d : ℕ} {source u : Source} {code : Code Float}
    (h : Grown s shape level count source code u d) : ¬Stuck s shape level count source := by
  induction h with
  | nil => nofun
  | cons hnode hoperands _ ihoperands ihrest =>
    intro hstuck
    cases hstuck with
    | node hnode' =>
      rw [hnode] at hnode'
      cases hnode'
    | operands hnode' hoperands' =>
      rw [hnode] at hnode'
      cases hnode'
      exact ihoperands hoperands'
    | rest hnode' hoperands' hrest' =>
      rw [hnode] at hnode'
      cases hnode'
      obtain ⟨rfl, rfl, rfl⟩ := hoperands.unique hoperands'
      exact ihrest hrest'

/-- At the last level there is nothing but terminals. -/
lemma arity_of_lastLevel {source t : Source} {node : Instruction Float}
    (h : instruction s shape (terminalAt lastLevel) source = (.ok node, t)) : node.arity = 0 :=
  ((returns_instruction s shape _).ok h).2.2.1 unitOf_lt_terminalAt

/-- Growth does not go beyond the last level. -/
lemma Grown.level_add_le {level count d : ℕ} {source u : Source} {code : Code Float}
    (h : Grown s shape level count source code u d) (hlevel : level ≤ lastLevel) :
    level + d ≤ lastLevel + 1 := by
  induction h with
  | nil => omega
  | @cons level count d e node operands rest source t u v hnode hoperands _ ihoperands ihrest =>
    have hrest := ihrest hlevel
    rcases Nat.lt_or_eq_of_le hlevel with hlt | rfl
    · have hoperands := ihoperands hlt
      omega
    · -- a terminal has no operands
      rw [arity_of_lastLevel hnode] at hoperands
      cases hoperands
      omega

/-- No level holds more than twice as many nodes as the level above. -/
lemma Grown.length_le {level count d : ℕ} {source u : Source} {code : Code Float}
    (h : Grown s shape level count source code u d) : code.length ≤ count * (2 ^ d - 1) := by
  induction h with
  | nil => simp
  | @cons level count d e node operands rest source t u v hnode _ _ ihoperands ihrest =>
    have harity : node.arity ≤ 2 := Opcode.arity_le_two _
    have hd : 2 ^ (d + 1) ≤ 2 ^ max (d + 1) e := Nat.pow_le_pow_right Nat.two_pos (le_max_left _ _)
    have he : 2 ^ e ≤ 2 ^ max (d + 1) e := Nat.pow_le_pow_right Nat.two_pos (le_max_right _ _)
    have hpos : 0 < 2 ^ d := Nat.two_pow_pos d
    have hsubtree : operands.length + 1 ≤ 2 ^ max (d + 1) e - 1 := by
      have := Nat.mul_le_mul_right (2 ^ d - 1) harity
      rw [pow_succ] at hd
      omega
    have hrest : rest.length ≤ count * (2 ^ max (d + 1) e - 1) :=
      ihrest.trans (Nat.mul_le_mul_left _ (Nat.sub_le_sub_right he 1))
    rw [List.length_append, List.length_append, List.length_singleton, Nat.succ_mul]
    omega

/-- Subtrees that have grown push one value each and hold nothing but drawn instructions. -/
lemma Grown.drawnCode {level count d : ℕ} {source u : Source} {code : Code Float}
    (h : Grown s shape level count source code u d) : DrawnCode s shape count code := by
  induction h with
  | nil => exact .nil
  | @cons level count d e node operands rest source t u v hnode _ _ ihoperands ihrest =>
    obtain ⟨hdrawn, hallowed, -⟩ := (returns_instruction s shape _).ok hnode
    exact Nat.add_comm 1 count ▸ (ihoperands.node hdrawn hallowed).append ihrest

/-! ### Growth with a fixed number of levels -/

/-- A subtree that grows at a level, down to the last level at most. -/
abbrev grow (s : ModelSettings) (shape : Shape) (level : ℕ) : Draw (Code Float) :=
  subtree s shape (lastLevel - level) (terminalAt level)

/-- Growing a subtree is drawing a node and growing its operands, at the last level, too. -/
lemma grow_eq {level : ℕ} (hlevel : level ≤ lastLevel) (source : Source) :
    grow s shape level source = (do
      let node ← instruction s shape (terminalAt level)
      let operands ← repeated (grow s shape (level + 1)) node.arity
      return operands ++ [node] : Draw (Code Float)) source := by
  rcases Nat.lt_or_eq_of_le hlevel with hlt | rfl
  · obtain ⟨levels, hlevels⟩ := Nat.exists_eq_add_of_lt hlt
    rw [grow, grow, show lastLevel - level = levels + 1 by omega,
      show lastLevel - (level + 1) = levels by omega]
    rfl
  · rw [grow, Nat.sub_self, subtree, Act.bind_apply, Act.bind_apply]
    rcases hnode : instruction s shape (terminalAt lastLevel) source with ⟨e | node, t⟩
    · rfl
    · dsimp only
      rw [arity_of_lastLevel hnode]
      rfl

/-- Drawing so many subtrees gives what grows, or fails where growth is stuck. -/
def Ends (s : ModelSettings) (shape : Shape) (level count : ℕ) (source : Source) : Prop :=
  match repeated (grow s shape level) count source with
  | (.ok code, u) => ∃ d, Grown s shape level count source code u d
  | (.error e, _) => e = .stalled ∧ Stuck s shape level count source

/-- One subtree more ends if its operands do. -/
lemma ends_succ {level count : ℕ} {source : Source} (hlevel : level ≤ lastLevel)
    (hoperands : ∀ {node t}, instruction s shape (terminalAt level) source = (.ok node, t) →
      Ends s shape (level + 1) node.arity t)
    (hrest : ∀ u, Ends s shape level count u) : Ends s shape level (count + 1) source := by
  rw [Ends, repeated, Act.bind_apply, grow_eq hlevel, Act.bind_apply]
  rcases hnode : instruction s shape (terminalAt level) source with ⟨e | node, t⟩
  · obtain rfl : e = .stalled := Act.Triple.error (returns_instruction s shape _) trivial hnode
    exact ⟨rfl, .node hnode⟩
  · have hends := hoperands hnode
    rw [Ends] at hends
    dsimp only
    rw [Act.bind_apply]
    rcases hrun : repeated (grow s shape (level + 1)) node.arity t with ⟨e | operands, u⟩ <;>
      rw [hrun] at hends
    · exact ⟨hends.1, .operands hnode hends.2⟩
    · obtain ⟨d, hgrown⟩ := hends
      have hends := hrest u
      rw [Ends] at hends
      show match (repeated (grow s shape level) count >>= fun rest =>
        pure (operands ++ [node] ++ rest)) u with
        | (.ok code, u) => _
        | (.error e, _) => _
      rw [Act.bind_apply]
      rcases hmore : repeated (grow s shape level) count u with ⟨e | rest, v⟩ <;>
        rw [hmore] at hends
      · exact ⟨hends.1, .rest hnode hgrown hends.2⟩
      · obtain ⟨d', hgrown'⟩ := hends
        exact ⟨_, .cons hnode hgrown hgrown'⟩

/-- Growth has come to its end at the last level, or it is stuck. -/
lemma ends {level : ℕ} (hlevel : level ≤ lastLevel) (count : ℕ) (source : Source) :
    Ends s shape level count source := by
  induction hlevels : lastLevel - level generalizing level count source with
  | zero =>
    obtain rfl : level = lastLevel := by omega
    induction count generalizing source with
    | zero => exact ⟨0, .nil⟩
    | succ count ih =>
      refine ends_succ hlevel (fun hnode => ?_) ih
      rw [arity_of_lastLevel hnode]
      exact ⟨0, .nil⟩
  | succ levels ih =>
    induction count generalizing source with
    | zero => exact ⟨0, .nil⟩
    | succ count ihcount =>
      exact ends_succ hlevel (fun _ => ih (by omega) _ _ (by omega)) ihcount

/-- Drawing a tree gives the tree that grows, or fails where growth is stuck. -/
lemma tree_ends (s : ModelSettings) (shape : Shape) (source : Source) :
    match tree s shape source with
    | (.ok code, u) => ∃ d, GrownTree s shape source code u d
    | (.error e, _) => e = .stalled ∧ StuckTree s shape source := by
  show match (instruction s shape (rootProbability s) >>= fun node =>
      repeated (grow s shape 1) node.arity >>= fun operands => pure (operands ++ [node])) source with
    | (.ok code, u) => _
    | (.error e, _) => _
  rw [Act.bind_apply]
  rcases hnode : instruction s shape (rootProbability s) source with ⟨e | node, t⟩
  · obtain rfl : e = .stalled := Act.Triple.error (returns_instruction s shape _) trivial hnode
    exact ⟨rfl, .root hnode⟩
  · have hends : Ends s shape 1 node.arity t := ends (by decide) _ _
    rw [Ends] at hends
    dsimp only
    rw [Act.bind_apply]
    rcases hrun : repeated (grow s shape 1) node.arity t with ⟨e | operands, u⟩ <;>
      rw [hrun] at hends
    · exact ⟨hends.1, .operands hnode hends.2⟩
    · obtain ⟨d, hgrown⟩ := hends
      exact ⟨d, .root hnode hgrown⟩

/-! ### Grown trees -/

lemma GrownTree.unique {d d' : ℕ} {source u u' : Source} {code code' : Code Float}
    (h : GrownTree s shape source code u d) (h' : GrownTree s shape source code' u' d') :
    code' = code ∧ u' = u := by
  obtain ⟨hnode, hoperands⟩ := h
  obtain ⟨hnode', hoperands'⟩ := h'
  rw [hnode] at hnode'
  cases hnode'
  obtain ⟨rfl, rfl, -⟩ := hoperands.unique hoperands'
  exact ⟨rfl, rfl⟩

lemma GrownTree.not_stuck {d : ℕ} {source u : Source} {code : Code Float}
    (h : GrownTree s shape source code u d) : ¬StuckTree s shape source := by
  obtain ⟨hnode, hoperands⟩ := h
  intro hstuck
  cases hstuck with
  | root hnode' =>
    rw [hnode] at hnode'
    cases hnode'
  | operands hnode' hoperands' =>
    rw [hnode] at hnode'
    cases hnode'
    exact hoperands.not_stuck hoperands'

/-- A tree with so many levels below its root, as trees should grow. -/
structure IsFullGrown (s : ModelSettings) (depth : ℕ) (code : Code Float) : Prop where
  isWellFormed : code.isWellFormed = true
  depth_le : depth ≤ 17
  length_le : code.length ≤ 2 ^ 18 - 1
  isOrdinary : ∀ i ∈ code, i.isNoOp = false ∧ i.isSeparator = false ∧ i.isAggregate = false
  weight : ∀ i ∈ code, 0.0 ≤ i.weight ∧ i.weight < 1.0
  pastInput : ∀ i ∈ code, i.opcode = .pastInput →
    0 < s.pastInputLimit ∧ 1 ≤ i.lag ∧ i.lag ≤ max 1 (s.pastInputLimit - 1)
  pastOutput : ∀ i ∈ code, i.opcode = .pastOutput →
    0 < s.pastOutputLimit ∧ 1 ≤ i.lag ∧ i.lag ≤ max 1 (s.pastOutputLimit - 1)
  /-- Where lone terminals are forbidden, the root is none. -/
  root : s.nontrivial = true → ∃ root, code.getLast? = some root ∧ root.opcode.isTerminal = false

lemma GrownTree.isFullGrown {d : ℕ} {source u : Source} {code : Code Float}
    (h : GrownTree s shape source code u d) : IsFullGrown s d code := by
  obtain @⟨d, node, operands, source, t, u, hnode, hoperands⟩ := h
  obtain ⟨hdrawn, hallowed, -, hoperator⟩ := (returns_instruction s shape _).ok hnode
  have hcode : DrawnCode s shape 1 (operands ++ [node]) := hoperands.drawnCode.node hdrawn hallowed
  have hdepth : d ≤ lastLevel := by
    have := hoperands.level_add_le (by decide)
    omega
  refine ⟨?_, hdepth, ?_, fun i hi => ?_, fun i hi => ?_, fun i hi hop => ?_, fun i hi hop => ?_,
    fun hs => ⟨node, List.getLast?_concat, ?_⟩⟩
  · exact Code.isWellFormed_iff.mpr
      ⟨fun i hi => Code.isSeparator_of_isLive (hcode.drawn i hi).isLive, hcode.pushes 0⟩
  · have hpow : 2 ^ d ≤ 2 ^ lastLevel := Nat.pow_le_pow_right Nat.two_pos hdepth
    calc (operands ++ [node]).length = operands.length + 1 := by simp
      _ ≤ node.arity * (2 ^ d - 1) + 1 := Nat.succ_le_succ hoperands.length_le
      _ ≤ 2 * (2 ^ lastLevel - 1) + 1 :=
        Nat.succ_le_succ (Nat.mul_le_mul (Opcode.arity_le_two _) (Nat.sub_le_sub_right hpow 1))
      _ = 2 ^ 18 - 1 := by decide
  · have hlive := (hcode.drawn i hi).isLive
    exact ⟨Code.isNoOp_of_isLive hlive, Code.isSeparator_of_isLive hlive,
      (hcode.drawn i hi).inRange.notAggregate⟩
  · obtain ⟨w, hw⟩ := (hcode.drawn i hi).weight
    rw [hw]
    exact ⟨zero_le_unitOf w, unitOf_lt_one w⟩
  · have hi := hcode.drawn i hi
    exact ⟨(hi.pastInput hop).1, hi.inRange.lag (.inl hop), (hi.pastInput hop).2⟩
  · have hi := hcode.drawn i hi
    exact ⟨(hi.pastOutput hop).1, hi.inRange.lag (.inr hop), (hi.pastOutput hop).2⟩
  · -- no draw is below the probability of a terminal at such a root
    have harity : 0 < node.arity := hoperator fun w => by
      rw [rootProbability, if_pos hs]
      exact not_unitOf_lt_zero w
    cases hterminal : node.opcode.isTerminal with
    | false => rfl
    | true =>
      rw [Instruction.arity, Opcode.arity_of_isTerminal hterminal] at harity
      cases harity

/-- **Random growth always ends.**  For all settings, all numbers of columns and every source, the
tree that is drawn is the one that grows, where nothing says how deep it may grow.  No tree is drawn
only if growth comes to a node whose own draw does not return.  A tree that grows is well formed, has
at most seventeen levels below its root, where the probability of a terminal has passed one, and
holds nothing but drawn instructions in range. -/
theorem growth_ends (s : ModelSettings) (shape : Shape) (source : Source) :
    (∀ code u, tree s shape source = (.ok code, u) ↔
      ∃ depth, GrownTree s shape source code u depth) ∧
    ((∃ e u, tree s shape source = (.error e, u)) ↔ StuckTree s shape source) ∧
    (∀ e u, tree s shape source = (.error e, u) → e = .stalled) ∧
    (∀ code u depth, GrownTree s shape source code u depth → IsFullGrown s depth code) ∧
    (1.0 : Float) ≤ terminalAt 17 := by
  have hends := tree_ends s shape source
  refine ⟨fun code u => ?_, ?_, fun e u h => ?_, fun _ _ _ h => h.isFullGrown,
    one_le_terminalAt_lastLevel⟩
  · rcases hrun : tree s shape source with ⟨e | code', u'⟩ <;> rw [hrun] at hends
    · refine ⟨nofun, fun ⟨d, hgrown⟩ => absurd hends.2 hgrown.not_stuck⟩
    · obtain ⟨d, hgrown⟩ := hends
      refine ⟨fun h => ?_, fun ⟨d', hgrown'⟩ => ?_⟩
      · cases h
        exact ⟨d, hgrown⟩
      · obtain ⟨rfl, rfl⟩ := hgrown'.unique hgrown
        rfl
  · rcases hrun : tree s shape source with ⟨e | code', u'⟩ <;> rw [hrun] at hends
    · exact iff_of_true ⟨e, u', rfl⟩ hends.2
    · obtain ⟨d, hgrown⟩ := hends
      exact iff_of_false (by simp) hgrown.not_stuck
  · rw [h] at hends
    exact hends.1

end Draw

end FuzzyForest
