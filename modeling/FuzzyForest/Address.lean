/-
Positions in buffers.

Positions are computed in words of 64 bits, which start again from zero behind the last one.  A
position inside a buffer is found where it is; any other one may come out inside the buffer after
it has gone round.
-/
namespace FuzzyForest.Address

/-- Where a position is looked for in a buffer of some size. -/
def of (size position : Nat) : Nat :=
  if position < size then position else position % UInt64.size

theorem of_eq_self {size position : Nat} (h : position < size) : of size position = position :=
  if_pos h

end FuzzyForest.Address
