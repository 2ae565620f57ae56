/-
Draws whose words are chosen.

A draw can give a result if there are words that lead to it, whatever its source holds behind them.
Words can be chosen for one draw after the other, so that a draw in several steps can give what its
steps can.  Every part of a random tree can be drawn, and a mutation pass can leave alone whatever is
in front of a node, put a random tree in the place of its subtree and leave alone the rest.
-/
import FuzzyForest.Proofs.MutationPass

namespace FuzzyForest

open Growth

/-! ### Chosen words -/

/-- The next words of a source. -/
def Source.Begins (source : Source) (ws : List UInt64) : Prop :=
  ∀ n (h : n < ws.length), source.words (source.position + n) = ws[n]

/-- The source after so many more words are used. -/
def Source.skip (source : Source) (n : ℕ) : Source := { source with position := source.position + n }

lemma Source.begins_append {source : Source} {ws ws' : List UInt64}
    (h : source.Begins (ws ++ ws')) :
    source.Begins ws ∧ (source.skip ws.length).Begins ws' := by
  constructor
  · intro n hn
    rw [h n (by rw [List.length_append]; omega), List.getElem_append_left hn]
  · intro n hn
    have hword := h (ws.length + n) (by rw [List.length_append]; omega)
    rw [List.getElem_append_right (Nat.le_add_right _ _), ← Nat.add_assoc] at hword
    simpa only [Nat.add_sub_cancel_left, Source.skip] using hword

namespace Draw

variable {α β : Type}

/-- On any source that begins with the words, a draw uses up these and gives the result. -/
def Takes (ws : List UInt64) (d : Draw α) (a : α) : Prop :=
  ∀ source : Source, 0 < source.patience → source.Begins ws →
    d source = (.ok a, source.skip ws.length)

/-- Some words lead to the result. -/
def CanGive (d : Draw α) (a : α) : Prop := ∃ ws, Takes ws d a

/-- Some words lead to a result. -/
def CanEnd (d : Draw α) : Prop := ∃ a, CanGive d a

namespace CanGive

lemma pure (a : α) : CanGive (Pure.pure a) a := ⟨[], fun _ _ _ => rfl⟩

/-- The words of the second draw are chosen behind those of the first one. -/
lemma bind {d : Draw α} {f : α → Draw β} {a : α} {b : β} (hd : CanGive d a)
    (hf : CanGive (f a) b) : CanGive (d >>= f) b := by
  obtain ⟨ws, hws⟩ := hd
  obtain ⟨ws', hws'⟩ := hf
  refine ⟨ws ++ ws', fun source hpatience hbegins => ?_⟩
  obtain ⟨hfirst, hsecond⟩ := Source.begins_append hbegins
  rw [Act.bind_apply, hws source hpatience hfirst]
  dsimp only
  rw [hws' (source.skip ws.length) hpatience hsecond, List.length_append]
  simp only [Source.skip, Nat.add_assoc]

/-- What a draw can give it gives on some source. -/
lemma exists_source {d : Draw α} {a : α} (h : CanGive d a) :
    ∃ source source', d source = (.ok a, source') := by
  obtain ⟨ws, hws⟩ := h
  refine ⟨⟨fun n => ws.getD n 0, 0, 1⟩, _, hws _ Nat.one_pos fun n hn => ?_⟩
  simp [hn]

end CanGive

lemma canGive_unit (w : UInt64) : CanGive unit (unitOf w) := by
  refine ⟨[w], fun source _ hbegins => ?_⟩
  have hword : source.words source.position = w := hbegins 0 Nat.one_pos
  rw [← hword]
  rfl

/-- A number of a range can be drawn if some word stands for it. -/
lemma canGive_between_of_accept? {low high n : ℕ} {w : UInt64} (h : low < high)
    (haccept : accept? (high - low) w = some n) : CanGive (between low high) (low + n) := by
  refine ⟨[w], fun source hpatience hbegins => ?_⟩
  have hword : source.words source.position = w := hbegins 0 Nat.one_pos
  obtain ⟨fuel, hfuel⟩ := Nat.exists_eq_add_one.mpr hpatience
  have hbelow : belowWithin (high - low) (fuel + 1) source = (.ok n, source.advance) := by
    rw [belowWithin, Act.bind_apply, word, hword]
    dsimp only
    rw [haccept]
    rfl
  rw [between, if_pos h, Act.bind_apply, patience, hfuel]
  dsimp only
  rw [Act.bind_apply, hbelow]
  rfl

/-- The first number of a range can be drawn. -/
lemma canGive_between {low high : ℕ} (h : low < high) : CanGive (between low high) low :=
  canGive_between_of_accept? h (show accept? (high - low) 0 = some 0 by simp [accept?])

/-- Some word stands for a number below a range, unless there are fewer words. -/
lemma exists_accept? {range n : ℕ} (hn : n < range) (hrange : range ≤ UInt64.size) :
    ∃ w, accept? range w = some n := by
  have hpos : 0 < range := by omega
  -- the least word whose product with the range reaches the number
  set q := (n * UInt64.size + (range - 1)) / range with hq
  set m := (n * UInt64.size + (range - 1)) % range with hm
  have hmod : m < range := Nat.mod_lt _ hpos
  have hdiv : q * range + m = n * UInt64.size + (range - 1) := by
    rw [Nat.mul_comm]
    exact Nat.div_add_mod _ _
  have hproduct : q * range = n * UInt64.size + (range - 1 - m) := by omega
  have hrest : range - 1 - m < UInt64.size := by omega
  have hword : q < UInt64.size := by
    refine Nat.lt_of_mul_lt_mul_right (a := range) ?_
    calc q * range ≤ n * UInt64.size + (range - 1) := by omega
      _ < n * UInt64.size + UInt64.size := by omega
      _ = (n + 1) * UInt64.size := by rw [Nat.succ_mul]
      _ ≤ range * UInt64.size := Nat.mul_le_mul_right _ hn
      _ = UInt64.size * range := Nat.mul_comm _ _
  have hzone : range - 1 ≤ zone range := by
    have hshift : range ≤ range <<< (63 - range.log2) := by
      rw [Nat.shiftLeft_eq]
      exact Nat.le_mul_of_pos_right _ (Nat.two_pow_pos _)
    rw [zone]
    omega
  refine ⟨UInt64.ofNat q, ?_⟩
  have htoNat : (UInt64.ofNat q).toNat = q := UInt64.toNat_ofNat_of_lt' hword
  simp only [accept?, htoNat, hproduct]
  rw [Nat.mul_comm n, Nat.mul_add_mod, Nat.mod_eq_of_lt hrest, if_pos (by omega),
    Nat.mul_add_div (by decide), Nat.div_eq_of_lt hrest, Nat.add_zero]

/-- Every number of a range can be drawn, unless there are fewer words. -/
lemma canGive_between_of_mem {low high n : ℕ} (hlow : low ≤ n) (hhigh : n < high)
    (hwords : high - low ≤ UInt64.size) : CanGive (between low high) n := by
  obtain ⟨w, hw⟩ := exists_accept? (show n - low < high - low by omega) hwords
  have hdraw := canGive_between_of_accept? (by omega) hw
  rwa [Nat.add_sub_cancel' hlow] at hdraw

namespace CanEnd

lemma pure (a : α) : CanEnd (Pure.pure a : Draw α) := ⟨a, .pure a⟩

lemma bind {d : Draw α} {f : α → Draw β} (hd : CanEnd d) (hf : ∀ a, CanEnd (f a)) :
    CanEnd (d >>= f) := by
  obtain ⟨a, ha⟩ := hd
  obtain ⟨b, hb⟩ := hf a
  exact ⟨b, ha.bind hb⟩

lemma ite {c : Prop} [Decidable c] {d e : Draw α} (hd : CanEnd d) (he : CanEnd e) :
    CanEnd (if c then d else e) := by
  split
  · exact hd
  · exact he

end CanEnd

lemma canEnd_unit : CanEnd unit := ⟨_, canGive_unit 0⟩

/-! ### Trees -/

lemma canEnd_index (count : ℕ) : CanEnd (index count) := by
  rw [index]
  split
  · exact .pure 0
  · exact ⟨0, canGive_between (by omega)⟩

lemma canEnd_lag (horizon : ℕ) : CanEnd (lag horizon) := by
  rw [lag]
  split
  · rename_i h
    exact ⟨1, canGive_between h⟩
  · exact .pure 1

section

variable (s : ModelSettings) (shape : Shape)

lemma canEnd_terminal : CanEnd (terminal s shape) := by
  refine .ite ((CanEnd.pure noInputRoll).bind fun roll => ?_) (canEnd_unit.bind fun roll => ?_)
  all_goals
    exact .ite ((canEnd_lag _).bind fun _ => (canEnd_index _).bind fun _ => .pure _)
      (.ite ((canEnd_lag _).bind fun _ => (canEnd_index _).bind fun _ => .pure _)
        ((canEnd_index _).bind fun _ => .pure _))

lemma canEnd_binary : CanEnd binary :=
  CanEnd.bind ⟨0, canGive_between (by decide)⟩ fun _ => .pure _

lemma canEnd_instruction (p : Float) : CanEnd (instruction s shape p) := by
  have hnode : CanEnd (do
      if (← unit) < p then terminal s shape
      else if (← unit) < notProbability ∧ s.allowNot then return Instruction.plain .not
      else binary) :=
    canEnd_unit.bind fun _ => .ite (canEnd_terminal s shape)
      (canEnd_unit.bind fun _ => .ite (.pure _) canEnd_binary)
  exact hnode.bind fun _ => canEnd_unit.bind fun _ => .pure _

lemma canEnd_repeated {d : Draw (Code Float)} (hd : CanEnd d) (count : ℕ) :
    CanEnd (repeated d count) := by
  induction count with
  | zero => exact .pure []
  | succ count ih => exact hd.bind fun _ => ih.bind fun _ => .pure _

lemma canEnd_subtree (levels : ℕ) (p : Float) : CanEnd (subtree s shape levels p) := by
  induction levels generalizing p with
  | zero => exact (canEnd_instruction s shape p).bind fun _ => .pure _
  | succ levels ih =>
    exact (canEnd_instruction s shape p).bind fun _ =>
      (canEnd_repeated (ih _) _).bind fun _ => .pure _

/-- **A random tree can be drawn.** -/
theorem canEnd_tree : CanEnd (tree s shape) :=
  (canEnd_instruction s shape _).bind fun _ =>
    (canEnd_repeated (canEnd_subtree s shape _ _) _).bind fun _ => .pure _

end

end Draw

namespace Forest

open Draw (CanGive)

variable {s : ModelSettings} {shape : Shape}

/-! ### Mutation passes -/

/-- The probability of a mutation for which there are words that let it happen and words that do
not. -/
def evenOdds : Float := 0.5

/-- A turn can pass over its instruction. -/
lemma canGive_keep (before rest : Code Float) (i : Instruction Float) :
    CanGive (turn s shape evenOdds before i rest) (.keep, i :: before, rest) := by
  rw [turn]
  split
  · exact .pure _
  · refine (Draw.canGive_unit 0x8000000000000000).bind ?_
    rw [if_pos (by decide +kernel)]
    exact .pure _

variable (s shape) in
/-- A turn can put a random tree in the place of the subtree of a live instruction. -/
lemma exists_canGive_subtree (before rest : Code Float) {i : Instruction Float}
    (hi : i.isLive = true) : ∃ tree, Draw.DrawnTree s shape tree ∧
      CanGive (turn s shape evenOdds before i rest)
        (.subtree, tree.reverse ++ before.drop (Code.reachOf i before), rest) := by
  obtain ⟨tree, htree⟩ := Draw.canEnd_tree s shape
  obtain ⟨source, source', hdraw⟩ := htree.exists_source
  refine ⟨tree, (Draw.returns_tree s shape).ok hdraw, ?_⟩
  rw [turn, if_neg (by simp [hi])]
  -- the instruction is changed, and the change is neither in place nor an insertion nor a point
  refine (Draw.canGive_unit 0).bind ?_
  rw [if_neg (by decide +kernel)]
  refine (Draw.canGive_unit 0xC000000000000000).bind ?_
  rw [if_neg (by decide +kernel), if_neg (not_and_of_not_left _ (by decide +kernel))]
  refine (Draw.canGive_unit 0xF000000000000000).bind ?_
  rw [if_neg (by decide +kernel)]
  exact htree.bind (.pure _)

/-- A pass can leave alone whatever comes next. -/
lemma canGive_kept (before front rest : Code Float) {code : Code Float}
    (h : CanGive (mutatePass s shape evenOdds (front.reverse ++ before) rest) code) :
    CanGive (mutatePass s shape evenOdds before (front ++ rest)) code := by
  induction front generalizing before with
  | nil => exact h
  | cons i front ih =>
    rw [List.cons_append, mutatePass_cons]
    refine (canGive_keep before (front ++ rest) i).bind (ih _ ?_)
    simpa using h

variable (s shape) in
/-- **A pass can do nothing but put a random tree in the place of the subtree of one node.** -/
theorem exists_canGive_grafted (before rest : Code Float) {i : Instruction Float}
    (hi : i.isLive = true) : ∃ tree, Draw.DrawnTree s shape tree ∧
      CanGive (mutatePass s shape evenOdds [] (Place.code (before, i :: rest)))
        (Place.code (tree.reverse ++ before.drop (Code.reachOf i before), rest)) := by
  obtain ⟨tree, htree, hturn⟩ := exists_canGive_subtree s shape before rest hi
  refine ⟨tree, htree, canGive_kept [] before.reverse (i :: rest) ?_⟩
  rw [List.reverse_reverse, List.append_nil, mutatePass_cons]
  refine hturn.bind ?_
  have hend : CanGive (mutatePass s shape evenOdds
      (rest.reverse ++ (tree.reverse ++ before.drop (Code.reachOf i before))) [])
      (Place.code (tree.reverse ++ before.drop (Code.reachOf i before), rest)) := by
    rw [mutatePass, Place.code, List.reverse_append, List.reverse_reverse]
    exact .pure _
  have hrest := canGive_kept _ rest [] hend
  rwa [List.append_nil] at hrest

end Forest

end FuzzyForest
