/-
Changes in place.

A change in place gives one part of an instruction another value and leaves the others and the kind
alone.  An operand or a lag is drawn from a range that is one too short, and numbers from the old
value on are moved up by one: that leaves out the old value and nothing else.  Where the range holds
no second value, the weight changes instead.
-/
import FuzzyForest.Proofs.ChosenDraws

namespace FuzzyForest

open Act (Returns)

/-! ### Numbers other than the old one -/

namespace Mutation

/-- Numbers are moved into the range, past the old one, wherever that is. -/
lemma mapsTo_skipping (low high old : ℕ) :
    Set.MapsTo (skipping old) (Set.Ico low (high - 1)) (Set.Ico low high \ {old}) := by
  intro candidate h
  simp only [Set.mem_Ico, Set.mem_sdiff, Set.mem_singleton_iff, skipping] at h ⊢
  split <;> omega

lemma skipping_injective (old : ℕ) : Function.Injective (skipping old) := by
  intro a b h
  simp only [skipping] at h
  split at h <;> split at h <;> omega

/-- No number but an old one in the range is left out. -/
lemma surjOn_skipping {low high old : ℕ} (h : old ∈ Set.Ico low high) :
    Set.SurjOn (skipping old) (Set.Ico low (high - 1)) (Set.Ico low high \ {old}) := by
  rintro n ⟨hn, hne : n ≠ old⟩
  simp only [Set.mem_Ico] at h hn
  rcases Nat.lt_or_gt_of_ne hne with hbelow | habove
  · exact ⟨n, Set.mem_Ico.mpr (by omega), if_neg (by omega)⟩
  · refine ⟨n - 1, Set.mem_Ico.mpr (by omega), ?_⟩
    rw [skipping, if_pos (by omega)]
    omega

/-- **The numbers that can be drawn are those of the range but the old one.** -/
theorem bijOn_skipping {low high old : ℕ} (h : old ∈ Set.Ico low high) :
    Set.BijOn (skipping old) (Set.Ico low (high - 1)) (Set.Ico low high \ {old}) :=
  ⟨mapsTo_skipping low high old, (skipping_injective old).injOn, surjOn_skipping h⟩

end Mutation

/-! ### Parts of instructions -/

/-- A part of an instruction that holds a whole number. -/
inductive Slot where
  | operand
  | lag
deriving DecidableEq

namespace Slot

variable {α : Type}

/-- What the instruction holds there. -/
def value (i : Instruction α) : Slot → ℕ
  | operand => i.operand
  | lag => i.lag

/-- The instruction with another value there. -/
def put (i : Instruction α) (n : ℕ) : Slot → Instruction α
  | operand => { i with operand := n }
  | lag => { i with lag := n }

/-- The first value that fits. -/
def low : Slot → ℕ
  | operand => 0
  | lag => 1

/-- The number up to which values fit; nothing fits into a part that the kind does not use. -/
def high (s : ModelSettings) (shape : Shape) : Opcode → Slot → ℕ
  | .input, operand => shape.inputs
  | .pastInput, operand => shape.inputs
  | .pastOutput, operand => shape.targets
  | .pastInput, lag => s.pastInputLimit
  | .pastOutput, lag => s.pastOutputLimit
  | _, _ => 0

/-- The part that a roll selects, unless it selects the weight. -/
def picked? (op : Opcode) (roll : Float) : Option Slot :=
  if roll < Mutation.weightBelow then none
  else match op with
    | .input => some operand
    | .pastInput | .pastOutput => some (if roll < Mutation.lagBelow then lag else operand)
    | _ => none

end Slot

/-- One part of the instruction is given another value that fits it. -/
inductive Instruction.Changed (s : ModelSettings) (shape : Shape) (i : Instruction Float) :
    Instruction Float → Prop where
  | slot (x : Slot) {n : ℕ} (fits : n ∈ Set.Ico x.low (x.high s shape i.opcode))
      (other : n ≠ x.value i) : Changed s shape i (x.put i n)
  | weight {w : Float} (nonneg : 0.0 ≤ w) (lt_one : w < 1.0) (other : (w == i.weight) = false) :
      Changed s shape i { i with weight := w }

namespace Draw

open Mutation

variable (s : ModelSettings) (shape : Shape) (i : Instruction Float)

/-- A change in place rolls for a part, and gives that another value. -/
lemma mutated_eq : mutated s shape i = (do
    let roll ← unit
    match Slot.picked? i.opcode roll with
    | some x => reroll i (x.value i) x.low (x.high s shape i.opcode) (x.put i)
    | none => reweigh i) := by
  rw [mutated]
  congr
  funext roll
  rcases i with ⟨op, operand, lag, weight⟩
  by_cases hweight : roll < weightBelow
  · simp only [Slot.picked?, hweight, if_true]
  · cases op with
    | pastInput | pastOutput =>
      by_cases hlag : roll < lagBelow <;> simp only [Slot.picked?, hweight, hlag, if_true, if_false]
        <;> rfl
    | input =>
      simp only [Slot.picked?, hweight, if_false]
      rfl
    | _ => simp only [Slot.picked?, hweight, if_false]

lemma returns_freshWeight_ne (old : Float) (fuel : ℕ) :
    Returns (freshWeight old fuel) fun w => 0.0 ≤ w ∧ w < 1.0 ∧ (w == old) = false := by
  induction fuel with
  | zero => exact fun _ _ => rfl
  | succ fuel ih =>
    refine returns_unit.bind ?_
    rintro - ⟨w, rfl⟩
    exact .ite (fun _ => ih) fun h =>
      .pure ⟨zero_le_unitOf w, unitOf_lt_one w, Bool.eq_false_of_not_eq_true h⟩

lemma changed_reweigh : Returns (reweigh i) (i.Changed s shape) := by
  have hpatience : Returns patience fun _ => True := fun _ _ => trivial
  exact hpatience.bind fun fuel _ => (returns_freshWeight_ne i.weight fuel).bind fun w hw =>
    .pure (.weight hw.1 hw.2.1 hw.2.2)

lemma changed_reroll (x : Slot) : Returns
    (reroll i (x.value i) x.low (x.high s shape i.opcode) (x.put i)) (i.Changed s shape) := by
  refine .ite (fun _ => changed_reweigh s shape i) fun h => ?_
  refine (returns_between (by omega)).bind fun candidate hcandidate => .pure ?_
  obtain ⟨hfits, hother⟩ :=
    mapsTo_skipping x.low (x.high s shape i.opcode) (x.value i) (Set.mem_Ico.mpr hcandidate)
  exact .slot x hfits hother

/-- A change in place changes one part, to another value that fits. -/
lemma changed_mutated : Returns (mutated s shape i) (i.Changed s shape) := by
  rw [mutated_eq]
  refine returns_unit.bind fun roll _ => ?_
  split
  · exact changed_reroll s shape i _
  · exact changed_reweigh s shape i

/-- The part that the next word selects. -/
def pickedBy (source : Source) : Option Slot :=
  Slot.picked? i.opcode (unitOf (source.words source.position))

/-- A part that is selected and has a choice of values gets the one that a candidate leads to. -/
lemma mutated_of_pickedBy {source source' : Source} {j : Instruction Float} {x : Slot}
    (hpicked : pickedBy i source = some x) (hchoice : x.low + 1 < x.high s shape i.opcode)
    (h : mutated s shape i source = (.ok j, source')) : ∃ candidate,
      between x.low (x.high s shape i.opcode - 1) source.advance = (.ok candidate, source') ∧
        j = x.put i (skipping (x.value i) candidate) := by
  rw [mutated_eq] at h
  obtain ⟨roll, t, hroll, h⟩ := Act.bind_eq_ok.mp h
  cases hroll
  rw [pickedBy] at hpicked
  simp only [hpicked, reroll, Nat.not_le.mpr hchoice, if_false] at h
  obtain ⟨candidate, _, hcandidate, hput⟩ := Act.bind_eq_ok.mp h
  cases hput
  exact ⟨candidate, hcandidate, rfl⟩

/-- If no such part is selected, the weight changes. -/
lemma mutated_of_no_choice {source source' : Source} {j : Instruction Float}
    (hnone : ∀ x, pickedBy i source = some x → x.high s shape i.opcode ≤ x.low + 1)
    (h : mutated s shape i source = (.ok j, source')) : ∃ w, j = { i with weight := w } := by
  rw [mutated_eq] at h
  obtain ⟨roll, t, hroll, h⟩ := Act.bind_eq_ok.mp h
  cases hroll
  have hreweigh : reweigh i source.advance = (.ok j, source') := by
    cases hpicked : pickedBy i source with
    | none =>
      rw [pickedBy] at hpicked
      rwa [hpicked] at h
    | some x =>
      have hchoice := hnone x hpicked
      rw [pickedBy] at hpicked
      simpa only [hpicked, reroll, hchoice, if_true] using h
  exact (returns_reweigh_eq i).ok hreweigh

/-- **A change in place changes one part of an instruction, to another value that fits.**  Whatever
the instruction, its kind stays, and a change fails only on a source whose words are all passed
over.  A number changes if it is selected and has a choice, and otherwise the weight does.  A number
that changes comes from a candidate: every candidate leads into the range and away from the old
number, wherever that is, and if the old number is in the range, then each of the others is led to
by exactly one candidate. -/
theorem mutated_changes_one_part :
    Returns (mutated s shape i) (i.Changed s shape) ∧
    (∀ source j source', mutated s shape i source = (.ok j, source') →
      (∀ x, pickedBy i source = some x → x.low + 1 < x.high s shape i.opcode → ∃ candidate,
        between x.low (x.high s shape i.opcode - 1) source.advance = (.ok candidate, source') ∧
          j = x.put i (skipping (x.value i) candidate)) ∧
      ((∀ x, pickedBy i source = some x → x.high s shape i.opcode ≤ x.low + 1) →
        ∃ w, j = { i with weight := w })) ∧
    ∀ x : Slot,
      Set.MapsTo (skipping (x.value i)) (Set.Ico x.low (x.high s shape i.opcode - 1))
        (Set.Ico x.low (x.high s shape i.opcode) \ {x.value i}) ∧
      (x.value i ∈ Set.Ico x.low (x.high s shape i.opcode) →
        Set.BijOn (skipping (x.value i)) (Set.Ico x.low (x.high s shape i.opcode - 1))
          (Set.Ico x.low (x.high s shape i.opcode) \ {x.value i})) := by
  refine ⟨changed_mutated s shape i, fun source j source' h => ⟨fun x hpicked hchoice => ?_, ?_⟩,
    fun x => ⟨mapsTo_skipping _ _ _, bijOn_skipping⟩⟩
  · exact mutated_of_pickedBy s shape i hpicked hchoice h
  · exact fun hnone => mutated_of_no_choice s shape i hnone h

/-- The last of three columns takes the place of the middle one. -/
theorem mutated_changes_one_part_last_column :
    let s : ModelSettings := {}
    let shape : Shape := ⟨3, 1⟩
    let i := Instruction.input 1 (0.5 : Float)
    let source := Source.ofWords #[0xC000000000000000, 0x8000000000000000] fun _ => 0
    (mutated s shape i source).1.toOption = some (.input 2 0.5) ∧
      pickedBy i source = some .operand ∧ i.Changed s shape (.input 2 0.5) ∧
      (∃ candidate, (between 0 2 source.advance).1 = .ok candidate ∧
        Instruction.input 2 (0.5 : Float) = Slot.operand.put i (skipping 1 candidate)) ∧
      Set.BijOn (skipping 1) (Set.Ico 0 2) (Set.Ico 0 3 \ {1}) := by
  intro s shape i source
  obtain ⟨hchanged, hcandidate, hskipping⟩ := mutated_changes_one_part s shape i
  have hrun : (mutated s shape i source).1.toOption = some (.input 2 0.5) := by decide +kernel
  have hpicked : pickedBy i source = some .operand := by decide +kernel
  obtain ⟨t, ht⟩ : ∃ t, mutated s shape i source = (.ok (.input 2 0.5), t) := by
    rcases hm : mutated s shape i source with ⟨_ | j, t⟩ <;> rw [hm] at hrun
    · cases hrun
    · cases hrun
      exact ⟨t, rfl⟩
  obtain ⟨candidate, hbetween, hput⟩ := (hcandidate _ _ _ ht).1 .operand hpicked (by decide)
  exact ⟨hrun, hpicked, hchanged.ok ht, ⟨candidate, congrArg Prod.fst hbetween, hput⟩,
    (hskipping .operand).2 (by decide)⟩

/-! ### Numbers that can be drawn -/

/-- A kind that uses a part can have it picked. -/
lemma exists_picked? {x : Slot} {op : Opcode} (h : 0 < x.high s shape op) :
    ∃ w, Slot.picked? op (unitOf w) = some x := by
  cases x with
  | operand =>
    refine ⟨0xC000000000000000, ?_⟩
    have hweight : ¬unitOf 0xC000000000000000 < weightBelow := by decide +kernel
    have hlag : ¬unitOf 0xC000000000000000 < lagBelow := by decide +kernel
    cases op with
    | input | pastInput | pastOutput => simp [Slot.picked?, hweight, hlag]
    | _ => exact absurd h (Nat.lt_irrefl 0)
  | lag =>
    refine ⟨0x8000000000000000, ?_⟩
    have hweight : ¬unitOf 0x8000000000000000 < weightBelow := by decide +kernel
    have hlag : unitOf 0x8000000000000000 < lagBelow := by decide +kernel
    cases op with
    | pastInput | pastOutput => simp [Slot.picked?, hweight, hlag]
    | _ => exact absurd h (Nat.lt_irrefl 0)

/-- **Every other number that fits can take the place of one that fits.** -/
theorem canGive_put {x : Slot} {n : ℕ}
    (hold : x.value i ∈ Set.Ico x.low (x.high s shape i.opcode))
    (hn : n ∈ Set.Ico x.low (x.high s shape i.opcode)) (hother : n ≠ x.value i)
    (hwords : x.high s shape i.opcode ≤ UInt64.size) :
    CanGive (mutated s shape i) (x.put i n) := by
  obtain ⟨candidate, hcandidate, rfl⟩ := surjOn_skipping hold ⟨hn, hother⟩
  simp only [Set.mem_Ico] at hcandidate hold hn
  obtain ⟨w, hw⟩ : ∃ w, Slot.picked? i.opcode (unitOf w) = some x :=
    exists_picked? s shape (by omega)
  rw [mutated_eq]
  refine (canGive_unit w).bind ?_
  rw [hw]
  dsimp only
  rw [reroll, if_neg (by omega)]
  exact (canGive_between_of_mem hcandidate.1 hcandidate.2 (by omega)).bind (.pure _)

end Draw

end FuzzyForest
