/-
The key stream of a cipher with twelve rounds.

A block is a function of the key and of its number.  It starts from four constants, the eight words
of the key and the number of the block, runs six double rounds and adds the start to the result.
Two 32-bit words of the stream make a random word.
-/
namespace FuzzyForest.ChaCha

/-- The sixteen words of a block. -/
abbrev State := Vector UInt32 16

/-- A rotation to the left. -/
def rotateLeft (x : UInt32) (n : UInt32) : UInt32 := x <<< n ||| x >>> (32 - n)

/-- Four words, mixed. -/
def quarterRound (a b c d : Fin 16) (s : State) : State :=
  let s := s.set a (s[a] + s[b])
  let s := s.set d (rotateLeft (s[d] ^^^ s[a]) 16)
  let s := s.set c (s[c] + s[d])
  let s := s.set b (rotateLeft (s[b] ^^^ s[c]) 12)
  let s := s.set a (s[a] + s[b])
  let s := s.set d (rotateLeft (s[d] ^^^ s[a]) 8)
  let s := s.set c (s[c] + s[d])
  s.set b (rotateLeft (s[b] ^^^ s[c]) 7)

/-- The columns of the block, then its diagonals. -/
def doubleRound (s : State) : State :=
  s |> quarterRound 0 4 8 12 |> quarterRound 1 5 9 13 |> quarterRound 2 6 10 14
    |> quarterRound 3 7 11 15 |> quarterRound 0 5 10 15 |> quarterRound 1 6 11 12
    |> quarterRound 2 7 8 13 |> quarterRound 3 4 9 14

/-- So many double rounds. -/
def rounds : Nat → State → State
  | 0, s => s
  | n + 1, s => rounds n (doubleRound s)

/-- The start of a block. -/
def start (key : Vector UInt32 8) (number : UInt64) : State :=
  let constants : Vector UInt32 4 := #v[0x61707865, 0x3320646e, 0x79622d32, 0x6b206574]
  let counter : Vector UInt32 4 := #v[number.toUInt32, (number >>> 32).toUInt32, 0, 0]
  constants ++ key ++ counter

/-- A block of the key stream. -/
def block (key : Vector UInt32 8) (number : UInt64) : State :=
  let s := start key number
  s.zipWith (· + ·) (rounds 6 s)

/-- A step of the sequence that spreads a seed over a key. -/
def spread (state : UInt64) : UInt64 := state * 6364136223846793005 + 11634580027462260723

/-- The part of a key that a state of that sequence gives. -/
def keyWord (state : UInt64) : UInt32 :=
  let x := ((state >>> 18 ^^^ state) >>> 27).toUInt32
  let r := (state >>> 59).toUInt32
  x >>> r ||| x <<< ((32 - r) % 32)

/-- The states of that sequence after the seed. -/
def spreadStates : Nat → UInt64 → List UInt64
  | 0, _ => []
  | n + 1, state => spread state :: spreadStates n (spread state)

/-- The key of a seed. -/
def keyOfSeed (seed : UInt64) : Vector UInt32 8 :=
  let words := (spreadStates 8 seed).map keyWord
  Vector.ofFn fun i => words[i]?.getD 0

/-- The random words of a key. -/
def wordsOfKey (key : Vector UInt32 8) (n : Nat) : UInt64 :=
  let b := block key (n / 8).toUInt64
  let k := 2 * (n % 8)
  (b[k]?.getD 0).toUInt64 ||| (b[k + 1]?.getD 0).toUInt64 <<< 32

/-- The random words of a seed. -/
def words (seed : UInt64) : Nat → UInt64 := wordsOfKey (keyOfSeed seed)

end FuzzyForest.ChaCha
