/-
Triples for computations that may fail.

`Act.Triple P m Q E` says where a computation ends that starts in a state in `P`: with a result and
a state in `Q`, or with a failure and a state in `E`.  `Act.Returns m Q` is the triple of random
draws: whatever the state, the result is in `Q`, and the only failure is a source whose words are
all passed over.
-/
import FuzzyForest.Session
import Mathlib.Tactic.Common

namespace FuzzyForest.Act

variable {σ τ α β : Type} {P P' : σ → Prop} {Q Q' : α → σ → Prop} {E E' : Error → σ → Prop}

/-- A computation on a part of the state changes that part alone. -/
lemma within_eq {part : σ → τ} {put : τ → σ → σ} {m : Act τ α} {s s' : σ} {r : Except Error α} :
    within part put m s = (r, s') ↔ ∃ t, m (part s) = (r, t) ∧ put t s = s' := by
  rw [within]
  rcases m (part s) with ⟨r', t⟩
  simp only [Prod.mk.injEq]
  exact ⟨fun ⟨hr, ht⟩ => ⟨t, ⟨hr, rfl⟩, ht⟩, fun ⟨_, ⟨hr, ht⟩, hs⟩ => ⟨hr, ht ▸ hs⟩⟩

/-- A computation that starts in `P` ends with a result in `Q` or with a failure in `E`. -/
def Triple (P : σ → Prop) (m : Act σ α) (Q : α → σ → Prop) (E : Error → σ → Prop) : Prop :=
  ∀ s, P s → match m s with
    | (.ok a, t) => Q a t
    | (.error e, t) => E e t

namespace Triple

lemma ok {m : Act σ α} (h : Triple P m Q E) {s t : σ} {a : α} (hs : P s)
    (hm : m s = (.ok a, t)) : Q a t := by
  have := h s hs
  rwa [hm] at this

lemma error {m : Act σ α} (h : Triple P m Q E) {s t : σ} {e : Error} (hs : P s)
    (hm : m s = (.error e, t)) : E e t := by
  have := h s hs
  rwa [hm] at this

/-- A computation that ends in the same states whether it succeeds or fails. -/
lemma state {m : Act σ α} {R : σ → Prop} (h : Triple P m (fun _ s => R s) fun _ s => R s) {s : σ}
    (hs : P s) : R (m s).2 := by
  have := h s hs
  rcases hm : m s with ⟨e | a, t⟩ <;> rw [hm] at this
  · exact this
  · exact this

/-- States alone are what such a triple speaks of. -/
lemma of_state {m : Act σ α} {R : σ → Prop} (h : ∀ s, P s → R (m s).2) :
    Triple P m (fun _ s => R s) fun _ s => R s := by
  intro s hs
  have hR := h s hs
  rcases hm : m s with ⟨e | a, t⟩ <;> rw [hm] at hR
  · exact hR
  · exact hR

/-- The rule of consequence. -/
lemma mono {m : Act σ α} (h : Triple P m Q E) (hP : ∀ s, P' s → P s)
    (hQ : ∀ a s, Q a s → Q' a s) (hE : ∀ e s, E e s → E' e s) : Triple P' m Q' E' := by
  intro s hs
  have := h s (hP s hs)
  rcases hm : m s with ⟨e | a, t⟩ <;> rw [hm] at this
  · exact hE e t this
  · exact hQ a t this

lemma pure {a : α} (h : ∀ s, P s → Q a s) : Triple P (Pure.pure a) Q E := h

lemma fail {e : Error} (h : ∀ s, P s → E e s) : Triple P (fail e : Act σ α) Q E := h

lemma modify {f : σ → σ} {Q : Unit → σ → Prop} (h : ∀ s, P s → Q () (f s)) :
    Triple P (modify f) Q E := h

lemma lift {r : Except Error α} (hok : ∀ a, r = .ok a → ∀ s, P s → Q a s)
    (herror : ∀ e, r = .error e → ∀ s, P s → E e s) : Triple P (lift r) Q E := by
  intro s hs
  cases r with
  | error e => exact herror e rfl s hs
  | ok a => exact hok a rfl s hs

/-- A precondition that does not depend on the state. -/
lemma assume {c : Prop} {m : Act σ α} (h : c → Triple P m Q E) :
    Triple (fun s => P s ∧ c) m Q E :=
  fun s hs => h hs.2 s hs.1

/-- What does not depend on the state stays. -/
lemma const {c : Prop} {m : Act σ α} : Triple (fun _ => c) m (fun _ _ => c) (fun _ _ => c) := by
  intro s hc
  rcases m s with ⟨e | a, t⟩
  · exact hc
  · exact hc

/-- One computation after another. -/
lemma bind {m : Act σ β} {f : β → Act σ α} {R : β → σ → Prop} (hm : Triple P m R E)
    (hf : ∀ b, Triple (R b) (f b) Q E) : Triple P (m >>= f) Q E := by
  intro s hs
  rw [bind_apply]
  rcases h : m s with ⟨e | b, t⟩
  · exact hm.error hs h
  · exact hf b t (hm.ok hs h)

/-- Where first parts agree and lead to states in which second parts agree, so do both together. -/
lemma bind_congr {m n : Act σ β} {f g : β → Act σ α} {R : β → σ → Prop} (h : Triple P m R E)
    {s : σ} (hs : P s) (hm : n s = m s) (hf : ∀ b t, R b t → g b t = f b t) :
    (n >>= g) s = (m >>= f) s := by
  rw [bind_apply, bind_apply, hm]
  rcases hrun : m s with ⟨e | b, t⟩
  · rfl
  · exact hf b t (h.ok hs hrun)

/-- A computation on a part of the state, about which the rest is known, too. -/
lemma within {part : σ → τ} {put : τ → σ → σ} {m : Act τ α}
    (h : ∀ s, P s → Triple (fun t => t = part s) m (fun a t => Q a (put t s))
      (fun e t => E e (put t s))) : Triple P (within part put m) Q E := by
  intro s hs
  have := h s hs (part s) rfl
  rcases hm : m (part s) with ⟨e | a, t⟩ <;> rw [hm] at this <;> simpa [Act.within, hm] using this

/-- What is said of results and errors alone is said of a computation on a part of the state,
too. -/
lemma within_const {part : σ → τ} {put : τ → σ → σ} {m : Act τ α} {R : α → Prop}
    {F : Error → Prop} (h : Triple (fun _ => True) m (fun a _ => R a) fun e _ => F e) :
    Triple (fun _ => True) (Act.within part put m) (fun a _ => R a) fun e _ => F e :=
  within fun _ _ => h.mono (fun _ _ => trivial) (fun _ _ h => h) fun _ _ h => h

end Triple

/-- Whatever the state, a computation gives a result in `Q`, unless its source is exhausted. -/
def Returns (m : Act σ α) (Q : α → Prop) : Prop :=
  Triple (fun _ => True) m (fun a _ => Q a) (fun e _ => e = .stalled)

namespace Returns

variable {Q Q' : α → Prop}

lemma ok {m : Act σ α} (h : Returns m Q) {s t : σ} {a : α} (hm : m s = (.ok a, t)) : Q a :=
  Triple.ok h trivial hm

lemma mono {m : Act σ α} (h : Returns m Q) (hQ : ∀ a, Q a → Q' a) : Returns m Q' :=
  Triple.mono h (fun _ h => h) (fun a _ => hQ a) fun _ _ h => h

lemma pure {a : α} (h : Q a) : Returns (Pure.pure a : Act σ α) Q := Triple.pure fun _ _ => h

lemma bind {m : Act σ β} {f : β → Act σ α} {R : β → Prop} (hm : Returns m R)
    (hf : ∀ b, R b → Returns (f b) Q) : Returns (m >>= f) Q :=
  Triple.bind hm fun b s hb => hf b hb s trivial

lemma and {m : Act σ α} (h : Returns m Q) (h' : Returns m Q') :
    Returns m fun a => Q a ∧ Q' a := by
  intro s hs
  have hQ := h s hs
  have hQ' := h' s hs
  rcases hm : m s with ⟨e | a, t⟩ <;> rw [hm] at hQ hQ'
  · exact hQ
  · exact ⟨hQ, hQ'⟩

lemma ite {c : Prop} [Decidable c] {m n : Act σ α} (hm : c → Returns m Q)
    (hn : ¬c → Returns n Q) : Returns (if c then m else n) Q := by
  split
  · exact hm ‹_›
  · exact hn ‹_›

end Returns

/-- Whatever the state, a computation gives a result in `Q`, unless its source is exhausted or,
where `c` does not hold, it goes out of bounds. -/
def ReturnsIf (c : Prop) (m : Act σ α) (Q : α → Prop) : Prop :=
  Triple (fun _ => True) m (fun a _ => Q a) fun e _ => e = .stalled ∨ ¬c ∧ e = .outOfBounds

/-- A computation that returns does so under any condition. -/
lemma Returns.returnsIf {m : Act σ α} {Q : α → Prop} (h : Returns m Q) (c : Prop) :
    ReturnsIf c m Q := Triple.mono h (fun _ h => h) (fun _ _ h => h) fun _ _ he => .inl he

namespace ReturnsIf

variable {c : Prop} {Q : α → Prop}

lemma returns {m : Act σ α} (h : ReturnsIf c m Q) (hc : c) : Returns m Q :=
  Triple.mono h (fun _ h => h) (fun _ _ h => h) fun _ _ he => he.resolve_right fun h => h.1 hc

lemma ok {m : Act σ α} (h : ReturnsIf c m Q) {s t : σ} {a : α} (hm : m s = (.ok a, t)) : Q a :=
  Triple.ok h trivial hm

lemma error {m : Act σ α} (h : ReturnsIf c m Q) {s t : σ} {e : Error} (hm : m s = (.error e, t)) :
    e = .stalled ∨ ¬c ∧ e = .outOfBounds := Triple.error h trivial hm

lemma pure {a : α} (h : Q a) : ReturnsIf c (Pure.pure a : Act σ α) Q := Triple.pure fun _ _ => h

lemma outOfBounds (h : ¬c) : ReturnsIf c (Act.fail .outOfBounds : Act σ α) Q :=
  Triple.fail fun _ _ => .inr ⟨h, rfl⟩

lemma bind {m : Act σ β} {f : β → Act σ α} {R : β → Prop} (hm : ReturnsIf c m R)
    (hf : ∀ b, R b → ReturnsIf c (f b) Q) : ReturnsIf c (m >>= f) Q :=
  Triple.bind hm fun b s hb => hf b hb s trivial

lemma within {part : σ → τ} {put : τ → σ → σ} {m : Act τ α} (h : ReturnsIf c m Q) :
    ReturnsIf c (within part put m) Q :=
  Triple.within_const h

lemma modify {f : σ → σ} {Q : Unit → Prop} (h : Q ()) : ReturnsIf c (modify f) Q :=
  Triple.modify fun _ _ => h

lemma ite {d : Prop} [Decidable d] {m n : Act σ α} (hm : d → ReturnsIf c m Q)
    (hn : ¬d → ReturnsIf c n Q) : ReturnsIf c (if d then m else n) Q := by
  split
  · exact hm ‹_›
  · exact hn ‹_›

end ReturnsIf

/-- Whatever the state, what a computation gives is in `Q`, if it gives anything. -/
def Gives (m : Act σ α) (Q : α → Prop) : Prop :=
  Triple (fun _ => True) m (fun a _ => Q a) fun _ _ => True

namespace Gives

variable {Q Q' : α → Prop}

lemma ok {m : Act σ α} (h : Gives m Q) {s t : σ} {a : α} (hm : m s = (.ok a, t)) : Q a :=
  Triple.ok h trivial hm

lemma mono {m : Act σ α} (h : Gives m Q) (hQ : ∀ a, Q a → Q' a) : Gives m Q' :=
  Triple.mono h (fun _ h => h) (fun a _ => hQ a) fun _ _ h => h

/-- What is said of nothing is said of what any computation gives. -/
lemma any (m : Act σ α) : Gives m fun _ => True := Triple.const.mono (fun _ h => h)
  (fun _ _ h => h) fun _ _ h => h

lemma pure {a : α} (h : Q a) : Gives (Pure.pure a : Act σ α) Q := Triple.pure fun _ _ => h

lemma fail {e : Error} : Gives (Act.fail e : Act σ α) Q := Triple.fail fun _ _ => trivial

lemma lift {r : Except Error α} (h : ∀ a, r = .ok a → Q a) : Gives (Act.lift r : Act σ α) Q :=
  Triple.lift (fun a ha _ _ => h a ha) fun _ _ _ _ => trivial

lemma bind {m : Act σ β} {f : β → Act σ α} {R : β → Prop} (hm : Gives m R)
    (hf : ∀ b, R b → Gives (f b) Q) : Gives (m >>= f) Q :=
  Triple.bind hm fun b s hb => hf b hb s trivial

lemma ite {c : Prop} [Decidable c] {m n : Act σ α} (hm : c → Gives m Q) (hn : ¬c → Gives n Q) :
    Gives (if c then m else n) Q := by
  split
  · exact hm ‹_›
  · exact hn ‹_›

end Gives

end FuzzyForest.Act
