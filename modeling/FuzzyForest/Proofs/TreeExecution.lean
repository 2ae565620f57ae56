/-
Running a tree on all rows.

`Stored` describes the rows that a tree has been run on: each row runs the tree on the estimates
made so far and stores the one value that the run leaves.  `exists_stored` says that `execute` does
nothing else, however it ends.  What is stored is never changed again, and nothing else is changed.
-/
import FuzzyForest.Proofs.FuzzyRun

namespace FuzzyForest

variable {α : Type}

/-- The place for the estimate of a row. -/
def placeOf (estimates : Array α) (outputIdx outputs row : Nat) : Nat :=
  Address.of estimates.size (row * outputs + outputIdx)

/-- Where there is room for a row, its place is an entry of its output. -/
lemma placeOf_of_lt {estimates : Array α} {outputIdx outputs row : Nat}
    (h : row * outputs + outputIdx < estimates.size) :
    placeOf estimates outputIdx outputs row = row * outputs + outputIdx :=
  Address.of_eq_self h

variable [Scalar α]

/-- The rows from `start` up to `stop` are run and their values stored; `buffer` gives the
estimates before each row and behind the last one. -/
structure Stored (code : Code α) (ds : Dataset α) (outputIdx outputs start stop : Nat)
    (buffer : Nat → Array α) (value : Nat → α) : Prop where
  run : ∀ row, start ≤ row → row < stop →
    fuzzyRun ⟨ds, row, buffer row, outputs⟩ code [] = .ok [value row]
  inside : ∀ row, start ≤ row → row < stop →
    placeOf (buffer row) outputIdx outputs row < (buffer row).size
  next : ∀ row, start ≤ row → row < stop → buffer (row + 1)
    = (buffer row).setIfInBounds (placeOf (buffer row) outputIdx outputs row) (value row)

/-- How the rows from `row` on end. -/
inductive Ended (code : Code α) (ds : Dataset α) (outputIdx outputs stop row : Nat)
    (estimates : Array α) : Option (ExecutionError α) → Prop
  /-- There are no more rows. -/
  | done (h : row = stop) : Ended code ds outputIdx outputs stop row estimates none
  /-- A run does not leave one value. -/
  | failed (h : row < stop) (e : ExecutionError α)
    (hrun : ∀ x, fuzzyRun ⟨ds, row, estimates, outputs⟩ code [] ≠ .ok [x]) :
    Ended code ds outputIdx outputs stop row estimates (some e)
  /-- There is no place for the value. -/
  | outside (h : row < stop)
    (hplace : estimates.size ≤ placeOf estimates outputIdx outputs row) :
    Ended code ds outputIdx outputs stop row estimates (some .outOfBounds)

variable {code : Code α} {ds : Dataset α} {outputIdx outputs : Nat}

lemma Stored.nil (row : Nat) (buffer : Nat → Array α) (value : Nat → α) :
    Stored code ds outputIdx outputs row row buffer value := by
  refine ⟨?_, ?_, ?_⟩
  all_goals
    intro r hr hr'
    omega

/-- One more row in front. -/
lemma Stored.cons {row stop : Nat} {buffer : Nat → Array α} {value : Nat → α}
    {estimates : Array α} {x : α}
    (h : Stored code ds outputIdx outputs (row + 1) stop buffer value)
    (hrun : fuzzyRun ⟨ds, row, estimates, outputs⟩ code [] = .ok [x])
    (hinside : placeOf estimates outputIdx outputs row < estimates.size)
    (hnext : buffer (row + 1)
      = estimates.setIfInBounds (placeOf estimates outputIdx outputs row) x) :
    Stored code ds outputIdx outputs row stop (fun r => if r = row then estimates else buffer r)
      fun r => if r = row then x else value r := by
  have hlater : ∀ r, row ≤ r → r ≠ row → row + 1 ≤ r ∧ r + 1 ≠ row := by
    intro r hr hne
    omega
  refine ⟨?_, ?_, ?_⟩
  all_goals
    intro r hr hr'
    by_cases hne : r = row
  · simpa [hne] using hrun
  · simpa [hne] using h.run r (hlater r hr hne).1 hr'
  · simpa [hne] using hinside
  · simpa [hne] using h.inside r (hlater r hr hne).1 hr'
  · simpa [hne] using hnext
  · simpa [hne, (hlater r hr hne).2] using h.next r (hlater r hr hne).1 hr'

lemma exists_stored_rows (code : Code α) (ds : Dataset α) (outputIdx outputs remaining row : Nat)
    (estimates : Array α) (count : Nat) :
    ∃ stop buffer value, row ≤ stop ∧ buffer row = estimates ∧
      Stored code ds outputIdx outputs row stop buffer value ∧
      (executeRows fuzzySteps code ds outputIdx outputs remaining row estimates count).estimates
        = buffer stop ∧
      Ended code ds outputIdx outputs (row + remaining) stop (buffer stop) (executeRows fuzzySteps
        code ds outputIdx outputs remaining row estimates count).failure? := by
  induction remaining generalizing row estimates count with
  | zero =>
    exact ⟨row, fun _ => estimates, fun _ => Scalar.ofNat 0, Nat.le_refl _, rfl, .nil _ _ _, rfl,
      .done rfl⟩
  | succ remaining ih =>
    have hfst := runCode_fst ⟨ds, row, estimates, outputs⟩ count code []
    have hlt : row < row + (remaining + 1) := by omega
    rw [executeRows]
    split
    · -- one value is left: the other rows go on if it finds its place
      rename_i x count' hrun
      rw [hrun] at hfst
      dsimp only
      split
      · rename_i hinside
        obtain ⟨stop, buffer, value, hle, hstart, hstored, hestimates, hended⟩ :=
          ih (row + 1) (estimates.setIfInBounds _ x) count'
        have hstop : stop ≠ row := by omega
        refine ⟨stop, _, _, by omega, if_pos rfl, hstored.cons hfst.symm hinside hstart,
          hestimates.trans (if_neg hstop).symm, ?_⟩
        rw [Nat.add_right_comm, Nat.add_assoc] at hended
        rw [if_neg hstop]
        exact hended
      · rename_i houtside
        exact ⟨row, fun _ => estimates, fun _ => Scalar.ofNat 0, Nat.le_refl _, rfl, .nil _ _ _,
          rfl, .outside hlt (Nat.le_of_not_lt houtside)⟩
    · -- none or several values are left
      rename_i stack count' hstack hrun
      rw [hrun] at hfst
      refine ⟨row, fun _ => estimates, fun _ => Scalar.ofNat 0, Nat.le_refl _, rfl, .nil _ _ _,
        rfl, .failed hlt _ fun x hx => ?_⟩
      rw [hx] at hfst
      cases hfst
      exact hstack x rfl
    · rename_i e count' hrun
      rw [hrun] at hfst
      refine ⟨row, fun _ => estimates, fun _ => Scalar.ofNat 0, Nat.le_refl _, rfl, .nil _ _ _,
        rfl, .failed hlt _ fun x hx => ?_⟩
      rw [hx] at hfst
      cases hfst

/-- **Executing a tree stores the values that it leaves, row after row, until a row has none.** -/
theorem exists_stored (code : Code α) (ds : Dataset α) (estimates : Array α)
    (outputIdx outputs count : Nat) :
    ∃ stop buffer value, buffer 0 = estimates ∧
      Stored code ds outputIdx outputs 0 stop buffer value ∧
      (execute fuzzySteps code ds estimates outputIdx outputs count).estimates = buffer stop ∧
      Ended code ds outputIdx outputs ds.records stop (buffer stop)
        (execute fuzzySteps code ds estimates outputIdx outputs count).failure? := by
  obtain ⟨stop, buffer, value, -, h⟩ :=
    exists_stored_rows code ds outputIdx outputs ds.records 0 estimates count
  rw [Nat.zero_add] at h
  exact ⟨stop, buffer, value, h⟩

/-! ### What stays -/

namespace Stored

variable {stop : Nat} {buffer : Nat → Array α} {value : Nat → α}

/-- Storing keeps the number of the estimates. -/
lemma size_eq (h : Stored code ds outputIdx outputs 0 stop buffer value) {row : Nat}
    (hrow : row ≤ stop) : (buffer row).size = (buffer 0).size := by
  induction row with
  | zero => rfl
  | succ row ih =>
    rw [h.next row (Nat.zero_le _) hrow, Array.size_setIfInBounds, ih (Nat.le_of_lt hrow)]

lemma placeOf_eq (h : Stored code ds outputIdx outputs 0 stop buffer value) {row : Nat}
    (hrow : row ≤ stop) :
    placeOf (buffer row) outputIdx outputs row = placeOf (buffer 0) outputIdx outputs row := by
  rw [placeOf, placeOf, h.size_eq hrow]

/-- An entry that rows do not store in keeps its value. -/
lemma getElem?_eq (h : Stored code ds outputIdx outputs 0 stop buffer value) {k first last : Nat}
    (hfirst : first ≤ last) (hlast : last ≤ stop)
    (hk : ∀ row, first ≤ row → row < last → placeOf (buffer 0) outputIdx outputs row ≠ k) :
    (buffer last)[k]? = (buffer first)[k]? := by
  induction hfirst with
  | refl => rfl
  | @step last hle ih =>
    rw [h.next last (Nat.zero_le _) hlast, h.placeOf_eq (Nat.le_of_lt hlast),
      Array.getElem?_setIfInBounds_ne (hk last hle (Nat.lt_succ_self _)),
      ih (Nat.le_of_lt hlast) fun row hrow hlt => hk row hrow (Nat.lt_succ_of_lt hlt)]

/-- A value is found where it was stored, if no later row stores there. -/
lemma getElem?_placeOf (h : Stored code ds outputIdx outputs 0 stop buffer value) {row last : Nat}
    (hrow : row < last) (hlast : last ≤ stop)
    (hlater : ∀ row', row < row' → row' < last →
      placeOf (buffer 0) outputIdx outputs row' ≠ placeOf (buffer 0) outputIdx outputs row) :
    (buffer last)[placeOf (buffer 0) outputIdx outputs row]? = some (value row) := by
  have hstop : row < stop := Nat.lt_of_lt_of_le hrow hlast
  rw [h.getElem?_eq hrow hlast hlater, h.next row (Nat.zero_le _) hstop,
    h.placeOf_eq (Nat.le_of_lt hstop)]
  have hinside := h.inside row (Nat.zero_le _) hstop
  rw [h.placeOf_eq (Nat.le_of_lt hstop)] at hinside
  rw [Array.getElem?_setIfInBounds_self_of_lt hinside]

/-- Where there is room for all rows, a row is stored in its entry. -/
lemma next_entry (h : Stored code ds outputIdx outputs 0 stop buffer value)
    (hroom : ∀ row < stop, row * outputs + outputIdx < (buffer 0).size) {row : Nat}
    (hrow : row < stop) :
    buffer (row + 1) = (buffer row).setIfInBounds (row * outputs + outputIdx) (value row) := by
  rw [h.next row (Nat.zero_le _) hrow, h.placeOf_eq (Nat.le_of_lt hrow),
    placeOf_of_lt (hroom row hrow)]

lemma getElem?_entry (h : Stored code ds outputIdx outputs 0 stop buffer value)
    (hroom : ∀ row < stop, row * outputs + outputIdx < (buffer 0).size) (hpos : 0 < outputs)
    {row : Nat} (hrow : row < stop) :
    (buffer stop)[row * outputs + outputIdx]? = some (value row) := by
  have hplace := placeOf_of_lt (hroom row hrow)
  rw [← hplace]
  refine h.getElem?_placeOf hrow (Nat.le_refl _) ?_
  intro row' hlt hlt'
  rw [placeOf_of_lt (hroom row' hlt'), hplace]
  have := Nat.mul_lt_mul_of_pos_right hlt hpos
  omega

/-- No other entry changes. -/
lemma getElem?_of_ne (h : Stored code ds outputIdx outputs 0 stop buffer value)
    (hroom : ∀ row < stop, row * outputs + outputIdx < (buffer 0).size) {k : Nat}
    (hk : ∀ row < stop, row * outputs + outputIdx ≠ k) : (buffer stop)[k]? = (buffer 0)[k]? := by
  refine h.getElem?_eq (Nat.zero_le _) (Nat.le_refl _) ?_
  intro row _ hrow
  rw [placeOf_of_lt (hroom row hrow)]
  exact hk row hrow

end Stored

end FuzzyForest
