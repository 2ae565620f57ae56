/-
Stack depth.

What an instruction needs and leaves, and buffers that push a fixed number of values on any stack.
-/
import FuzzyForest.Rule.Code
import Mathlib.Tactic.Common

namespace FuzzyForest.Code

variable {α : Type}

/-- A buffer that leaves `n` values more than it finds, on every stack. -/
def Pushes (n : Nat) (code : Code α) : Prop := ∀ d, depthFrom d code = some (d + n)

lemma Pushes.nil : Pushes 0 ([] : Code α) := fun _ => rfl

lemma Pushes.append {m n : Nat} {a b : Code α} (ha : Pushes m a) (hb : Pushes n b) :
    Pushes (m + n) (a ++ b) := by
  intro d
  rw [depthFrom_append, ha d, Option.bind_some, hb, Nat.add_assoc]

/-! ### One instruction -/

lemma depthAfter_of_not_isLive {i : Instruction α} (h : i.isLive = false) (d : Nat) :
    depthAfter d i = some d := by
  rcases i with ⟨op, v, l, w⟩
  cases op with
  | noOp | separator => rfl
  | _ => cases h

lemma depthAfter_of_isAggregate {i : Instruction α} (h : i.isAggregate = true) (d : Nat) :
    depthAfter d i = if d = 0 then none else some 1 := by
  simp only [Instruction.isAggregate, decide_eq_true_eq] at h
  simp [depthAfter, h]

/-- A live instruction takes its operands and pushes one value. -/
lemma depthAfter_of_isLive {i : Instruction α} (h : i.isLive = true) (ha : i.isAggregate = false)
    (d : Nat) : depthAfter d i = if i.arity ≤ d then some (d - i.arity + 1) else none := by
  rcases i with ⟨op, v, l, w⟩
  cases op with
  | noOp | separator => cases h
  | processAll => cases ha
  | _ => rfl

lemma depthAfter_add_arity {i : Instruction α} (h : i.isLive = true) (ha : i.isAggregate = false)
    (d : Nat) : depthAfter (d + i.arity) i = some (d + 1) := by
  rw [depthAfter_of_isLive h ha, if_pos (Nat.le_add_left _ _), Nat.add_sub_cancel]

/-- The arity of a node and the depth behind it tell the depth before it. -/
lemma depthAfter_eq_some_iff {i : Instruction α} (h : i.isLive = true)
    (ha : i.isAggregate = false) {d e : Nat} :
    depthAfter d i = some e ↔ ∃ below, d = below + i.arity ∧ e = below + 1 := by
  rw [depthAfter_of_isLive h ha, Option.ite_none_right_eq_some, Option.some.injEq]
  constructor
  · rintro ⟨hle, rfl⟩
    exact ⟨d - i.arity, by omega, rfl⟩
  · rintro ⟨below, rfl, rfl⟩
    exact ⟨Nat.le_add_left _ _, by omega⟩

lemma depthFrom_concat (d : Nat) (code : Code α) (i : Instruction α) :
    depthFrom d (code ++ [i]) = (depthFrom d code).bind fun e => depthAfter e i := by
  rw [depthFrom_append]
  congr 1
  funext e
  rw [depthFrom_cons]
  cases depthAfter e i <;> rfl

/-- A node takes its operands from what is pushed before it. -/
lemma Pushes.concat {code : Code α} {i : Instruction α} {k : Nat}
    (hcode : Pushes (k + i.arity) code) (h : i.isLive = true) (ha : i.isAggregate = false) :
    Pushes (k + 1) (code ++ [i]) := by
  intro d
  rw [depthFrom_concat, hcode d, Option.bind_some, ← Nat.add_assoc, depthAfter_add_arity h ha,
    Nat.add_assoc]

lemma Pushes.concat_of_not_isLive {code : Code α} {i : Instruction α} {k : Nat}
    (hcode : Pushes k code) (h : i.isLive = false) : Pushes k (code ++ [i]) := by
  intro d
  rw [depthFrom_concat, hcode d, Option.bind_some, depthAfter_of_not_isLive h]

end FuzzyForest.Code
