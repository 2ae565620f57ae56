/-
Encoded texts.

The bytes of a text, cut at any place, may start or end inside a character.  `Encoded.characters`
reads bytes as far as they are characters and notes every garbled place.
-/
namespace FuzzyForest

/-- The bytes of a text. -/
abbrev Encoded := List UInt8

namespace Encoded

/-- The bytes of a text. -/
def ofChars (cs : List Char) : Encoded := cs.flatMap String.utf8EncodeChar

/-- What the first byte of a longer character says. -/
structure Lead where
  /-- The number of bytes that follow. -/
  further : Nat
  /-- The smallest byte that may come next. -/
  low : Nat
  /-- The largest byte that may come next. -/
  high : Nat
  /-- The part of the code in the first byte. -/
  code : Nat
deriving DecidableEq, Repr

/-- The smallest byte inside a character. -/
def lowest : Nat := 0x80

/-- The largest byte inside a character. -/
def highest : Nat := 0xBF

/-- What a byte beyond the plain ones says at the start of a character.  Codes must not be longer
than needed, and halves of characters are no characters. -/
def lead? (b : Nat) : Option Lead :=
  if 0xC2 ≤ b ∧ b ≤ 0xDF then some ⟨1, lowest, highest, b - 0xC0⟩
  else if b = 0xE0 then some ⟨2, 0xA0, highest, 0⟩
  else if b = 0xED then some ⟨2, lowest, 0x9F, 0xD⟩
  else if 0xE1 ≤ b ∧ b ≤ 0xEF then some ⟨2, lowest, highest, b - 0xE0⟩
  else if b = 0xF0 then some ⟨3, 0x90, highest, 0⟩
  else if b = 0xF4 then some ⟨3, lowest, 0x8F, 4⟩
  else if 0xF1 ≤ b ∧ b ≤ 0xF3 then some ⟨3, lowest, highest, b - 0xF0⟩
  else none

/-- The character that `further` more bytes complete, if they are there, and the rest. -/
def complete : (further low high code : Nat) → Encoded → Option Char × Encoded
  | 0, _, _, code, rest => (some (Char.ofNat code), rest)
  | _ + 1, _, _, _, [] => (none, [])
  | further + 1, low, high, code, b :: rest =>
    if low ≤ b.toNat ∧ b.toNat ≤ high then
      complete further lowest highest (code * 64 + (b.toNat - lowest)) rest
    else (none, b :: rest)

/-- The characters of the first bytes, each nothing where it is garbled.  Every character takes at
least one of the `fuel` steps. -/
def charactersFrom : (fuel : Nat) → Encoded → List (Option Char)
  | 0, _ => []
  | _ + 1, [] => []
  | fuel + 1, b :: rest =>
    if b.toNat < lowest then some (Char.ofNat b.toNat) :: charactersFrom fuel rest
    else match lead? b.toNat with
      | some l =>
        let (c, rest) := complete l.further l.low l.high l.code rest
        c :: charactersFrom fuel rest
      | none => none :: charactersFrom fuel rest

/-- The characters of bytes, each nothing where it is garbled. -/
def characters (bytes : Encoded) : List (Option Char) := charactersFrom bytes.length bytes

/-- Whether bytes are whole characters. -/
def isWhole (bytes : Encoded) : Bool := bytes.characters.all Option.isSome

/-- The character that stands for a garbled one. -/
def garbled : Char := '\uFFFD'

/-- The characters of bytes, with a sign for each garbled one. -/
def shown (bytes : Encoded) : List Char := bytes.characters.map fun c => c.getD garbled

end Encoded

end FuzzyForest
