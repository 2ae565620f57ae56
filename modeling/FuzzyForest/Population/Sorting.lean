/-
Sorting.

Comparisons that form an order on the entries of a list settle how a sort that keeps ties in their
order leaves it.  Comparisons that contradict one another do so only for a few entries, which are
inserted one by one; where there are more, the sort may leave them in any order, and it may break
off.
-/
import FuzzyForest.Population.Ranking

namespace FuzzyForest

namespace Ranking

variable {ι : Type} {better : ι → ι → Bool} {S : ι → Prop} {xs ys : List ι}

/-- Being better is a strict order, and an entry in `S` is worse than the first or better than the
second of two entries of which the first is better. -/
structure IsWeakOrder (better : ι → ι → Bool) (S : ι → Prop) : Prop where
  /-- Of two entries at most one is better. -/
  asymm : ∀ {x y}, better x y = true → better y x = false
  /-- An entry in `S` is comparable with one of two entries that differ. -/
  split : ∀ {x y z}, S y → better x z = true → better x y = true ∨ better y z = true

theorem IsWeakOrder.mono {T : ι → Prop} (h : IsWeakOrder better S) (hT : ∀ x, T x → S x) :
    IsWeakOrder better T :=
  ⟨h.asymm, fun hy => h.split (hT _ hy)⟩

/-- As many entries are inserted one by one, whatever the comparisons. -/
def few : Nat := 20

/-- A list of which it is settled how a sort leaves it. -/
def IsSortable (better : ι → ι → Bool) (xs : List ι) : Prop :=
  xs.length ≤ few ∨ IsWeakOrder better (· ∈ xs)

end Ranking

/-- A way to sort. -/
structure Sorting (ι : Type) where
  /-- The entries as the sort leaves them. -/
  sorted : (ι → ι → Bool) → List ι → List ι
  /-- Whether the sort comes to its end. -/
  completes : (ι → ι → Bool) → List ι → Bool
  /-- All entries are kept. -/
  sorted_perm (better : ι → ι → Bool) (xs : List ι) : (sorted better xs).Perm xs
  sorted_eq {better : ι → ι → Bool} {xs : List ι} (h : Ranking.IsSortable better xs) :
    sorted better xs = Ranking.sorted better xs
  completes_eq {better : ι → ι → Bool} {xs : List ι} (h : Ranking.IsSortable better xs) :
    completes better xs = true

/-- Entries are inserted one by one, however many there are. -/
def Sorting.insertion {ι : Type} : Sorting ι where
  sorted := Ranking.sorted
  completes _ _ := true
  sorted_perm := Ranking.sorted_perm
  sorted_eq _ := rfl
  completes_eq _ := rfl

end FuzzyForest
