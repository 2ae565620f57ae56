/-
Computations on a state.

An `Act` reads and changes a state and may fail on the way; a failure keeps the state that was
reached.  `Act.within` runs a computation on a part of a larger state.
-/
import FuzzyForest.Error

namespace FuzzyForest

/-- A computation on a state of type `σ`. -/
def Act (σ α : Type) : Type := σ → Except Error α × σ

namespace Act

variable {σ τ α β : Type}

/-- The computation that does nothing. -/
protected def pure (a : α) : Act σ α := fun s => (.ok a, s)

/-- One computation after another; a failure ends both. -/
protected def bind (m : Act σ α) (f : α → Act σ β) : Act σ β := fun s =>
  match m s with
  | (.ok a, s) => f a s
  | (.error e, s) => (.error e, s)

instance : Monad (Act σ) where
  pure := Act.pure
  bind := Act.bind

/-- The computation that fails. -/
def fail (e : Error) : Act σ α := fun s => (.error e, s)

/-- The state. -/
def get : Act σ σ := fun s => (.ok s, s)

/-- A change of the state. -/
def modify (f : σ → σ) : Act σ Unit := fun s => (.ok (), f s)

/-- A result that is already there. -/
def lift (r : Except Error α) : Act σ α := fun s => (r, s)

/-- A computation on a part of the state. -/
def within (part : σ → τ) (put : τ → σ → σ) (m : Act τ α) : Act σ α := fun s =>
  let (r, t) := m (part s)
  (r, put t s)

theorem bind_apply (m : Act σ α) (f : α → Act σ β) (s : σ) :
    (m >>= f) s = match m s with
      | (.ok a, s) => f a s
      | (.error e, s) => (.error e, s) := rfl

/-- It does not matter how computations are grouped. -/
theorem bind_assoc {γ : Type} (m : Act σ α) (f : α → Act σ β) (g : β → Act σ γ) :
    m >>= f >>= g = m >>= fun a => f a >>= g := by
  funext s
  simp only [bind_apply]
  rcases m s with ⟨_ | a, t⟩ <;> rfl

theorem bind_pure_unit (m : Act σ Unit) : (m >>= fun _ => pure ()) = m := by
  funext s
  rw [bind_apply]
  rcases m s with ⟨_ | a, t⟩ <;> rfl

theorem bind_eq_ok {m : Act σ α} {f : α → Act σ β} {s s' : σ} {b : β} :
    (m >>= f) s = (.ok b, s') ↔ ∃ a t, m s = (.ok a, t) ∧ f a t = (.ok b, s') := by
  rw [bind_apply]
  rcases m s with ⟨_ | a, t⟩
  · simp
  · exact ⟨fun h => ⟨a, t, rfl, h⟩, fun ⟨_, _, h, h'⟩ => by cases h; exact h'⟩

end Act

end FuzzyForest
