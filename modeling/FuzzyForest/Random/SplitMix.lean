/-
The split-mix sequence.

The state advances by a constant, and a word is the state with its bits mixed, so that every word
can be computed by itself.
-/
namespace FuzzyForest.SplitMix

/-- The constant by which the state advances. -/
def gamma : UInt64 := 0x9E3779B97F4A7C15

/-- The bits of a state, mixed. -/
def mix (state : UInt64) : UInt64 :=
  let z := (state ^^^ state >>> 30) * 0xBF58476D1CE4E5B9
  let z := (z ^^^ z >>> 27) * 0x94D049BB133111EB
  z ^^^ z >>> 31

/-- The words of the sequence that starts at `seed`. -/
def words (seed : UInt64) (n : Nat) : UInt64 :=
  mix (seed + gamma * (n + 1).toUInt64)

end FuzzyForest.SplitMix
