/-
Code that runs alike.

An evaluation depends on the trees of a forest only in what a run of each leaves on the empty stack,
or for which reason it fails; how many instructions were run before does not matter.  Trees that run
alike can stand for each other in every row, every buffer of estimates and every forest.
-/
import FuzzyForest.Proofs.LaggedEstimates
import Mathlib.Data.List.Forall2

namespace FuzzyForest

variable {α : Type} [Scalar α]

/-- Whatever they read, two buffers leave the same stack or fail for the same reason. -/
def RunsAlike (code code' : Code α) : Prop :=
  ∀ f : Frame α, fuzzyRun f code' [] = fuzzyRun f code []

lemma RunsAlike.refl (code : Code α) : RunsAlike code code := fun _ => rfl

/-- Code that runs alike writes the same estimates, at any time. -/
lemma executeRows_alike {code code' : Code α} (h : RunsAlike code code') (ds : Dataset α)
    (outputIdx outputs remaining row : Nat) (estimates : Array α) (count count' : Nat) :
    let run := executeRows fuzzySteps code ds outputIdx outputs remaining row estimates count
    let run' := executeRows fuzzySteps code' ds outputIdx outputs remaining row estimates count'
    run'.estimates = run.estimates ∧ run'.failure? = run.failure? := by
  induction remaining generalizing row estimates count count' with
  | zero => exact ⟨rfl, rfl⟩
  | succ remaining ih =>
    have hfst := h ⟨ds, row, estimates, outputs⟩
    rw [← runCode_fst _ count code, ← runCode_fst _ count' code'] at hfst
    rcases hrun : runCode fuzzySteps ⟨ds, row, estimates, outputs⟩ count code [] with ⟨r, n⟩
    rcases hrun' : runCode fuzzySteps ⟨ds, row, estimates, outputs⟩ count' code' [] with ⟨r', n'⟩
    obtain rfl : r' = r := by rwa [hrun, hrun'] at hfst
    simp only [executeRows, hrun, hrun']
    rcases r' with e | _ | ⟨x, _ | ⟨y, stack⟩⟩
    · exact ⟨rfl, rfl⟩
    · exact ⟨rfl, rfl⟩
    · dsimp only
      split
      · exact ih _ _ _ _
      · exact ⟨rfl, rfl⟩
    · exact ⟨rfl, rfl⟩

lemma runTrees_alike {trees trees' : List (Code α)} (h : List.Forall₂ RunsAlike trees trees')
    (ds : Dataset α) (outputs first : Nat) (estimates : Array α) (count count' : Nat) :
    let run := (runTrees fuzzySteps ds outputs trees first estimates count).execution
    let run' := (runTrees fuzzySteps ds outputs trees' first estimates count').execution
    run'.estimates = run.estimates ∧ run'.failure? = run.failure? := by
  induction h generalizing first estimates count count' with
  | nil => exact ⟨rfl, rfl⟩
  | @cons tree tree' rest rest' htree hrest ih =>
    obtain ⟨hestimates, hfailure⟩ :=
      executeRows_alike htree ds first outputs ds.records 0 estimates count count'
    rw [← execute, ← execute] at hestimates hfailure
    cases hrun : (execute fuzzySteps tree ds estimates first outputs count).failure? with
    | some e =>
      rw [hrun] at hfailure
      dsimp only
      rw [runTrees_of_failure hrun, runTrees_of_failure hfailure, hrun, hfailure]
      exact ⟨hestimates, rfl⟩
    | none =>
      rw [hrun] at hfailure
      dsimp only
      rw [runTrees_of_success hrun, runTrees_of_success hfailure, hestimates]
      exact ih _ _ _ _

namespace Forest

variable {ds : Dataset α} {settings : ModelSettings}
  {rates : Dataset α → Array α → Nat → Option (α × α)} {f g : Forest α}

/-- **Forests whose trees run alike are evaluated alike.** -/
theorem evaluate_alike (htrees : List.Forall₂ RunsAlike f.treeCodes g.treeCodes)
    (houtputs : g.outputs = f.outputs) (count count' : Nat) :
    let e := f.evaluate ⟨ds, settings, fuzzySteps, rates⟩ count
    let e' := g.evaluate ⟨ds, settings, fuzzySteps, rates⟩ count'
    e'.failure? = e.failure? ∧ e'.forest.estimates = e.forest.estimates ∧
      (e.failure? = none → e'.forest.p1 = e.forest.p1 ∧ e'.forest.p2 = e.forest.p2) := by
  obtain ⟨hestimates, hfailure⟩ := runTrees_alike htrees ds f.outputs 0
    (Array.replicate (ds.records * f.outputs) (Scalar.ofNat 0)) count count'
  cases hrun : (runTrees fuzzySteps ds f.outputs f.treeCodes 0
    (Array.replicate (ds.records * f.outputs) (Scalar.ofNat 0)) count).execution.failure? with
  | some e =>
    rw [hrun] at hfailure
    simp only [evaluate, houtputs, hrun, hfailure, hestimates, true_and]
    intro h
    cases h
  | none =>
    rw [hrun] at hfailure
    simp only [evaluate, houtputs, hrun, hfailure, hestimates]
    split <;> simp

/-- A failed evaluation keeps the error rates. -/
lemma rates_of_failure {ctx : Context α} {count : Nat} {e : ExecutionError α}
    (h : (f.evaluate ctx count).failure? = some e) :
    (f.evaluate ctx count).forest.p1 = f.p1 ∧ (f.evaluate ctx count).forest.p2 = f.p2 := by
  simp only [evaluate] at h ⊢
  split at h
  · exact ⟨rfl, rfl⟩
  · split at h
    · cases h
    · exact ⟨rfl, rfl⟩

end Forest

end FuzzyForest
