/-
Dialects of settings.

A `Dialect` says which values of a file stand for a truth value, a number, a text and so on.  A
document that is read by itself is taken at its word (`strict`); a file that can be overridden from
outside, where everything is text, also admits values that have to be converted (`lenient`).
-/
import FuzzyForest.Decimal.Layout
import FuzzyForest.Settings.Datum

namespace FuzzyForest

/-- What values of a file stand for. -/
structure Dialect where
  boolean? : Datum → Option Bool
  natural? : Datum → Option Nat
  number? : Datum → Option Float
  text? : Datum → Option String
  char? : Datum → Option Char
  /-- The name of a choice. -/
  choice? : Datum → Option String
  /-- A setting that is left out although it is named. -/
  isLeftOut : Datum → Bool
  /-- The named values of a section whose settings have the given names in their order. -/
  members? : (names : List String) → Datum → Option Members

namespace Datum

/-- The number that is nearest to a whole number. -/
def nearest (n : Int) : Float := Decimal.signed (n < 0) (Decimal.ofScientific n.natAbs 0)

/-- A text of one character. -/
def lone? (s : String) : Option Char :=
  match s.toList with
  | [c] => some c
  | _ => none

/-- A whole number that is not negative. -/
def unsigned? (n : Int) : Option Nat := if 0 ≤ n then some n.toNat else none

/-- The named values of a table, or of a list, whose items are named in order. -/
def members? (names : List String) : Datum → Option Members
  | table members => some members
  | list items => some (names.zip items)
  | _ => none

/-! ### Without conversions -/

/-- Whether a value is an empty list or table. -/
def isEmpty : Datum → Bool
  | list [] => true
  | table [] => true
  | _ => false

/-- A truth value as such. -/
def boolean? : Datum → Option Bool
  | boolean b => some b
  | _ => none

/-- An unsigned word as such. -/
def natural? : Datum → Option Nat
  | integer n => unsigned? n
  | _ => none

/-- A number, whole or not. -/
def number? : Datum → Option Float
  | number x => some x
  | integer n => some (nearest n)
  | _ => none

/-- A text as such. -/
def text? : Datum → Option String
  | text s => some s
  | _ => none

/-- A choice by its name, or as the only name in a table, with nothing in it. -/
def choice? : Datum → Option String
  | text s => some s
  | table [(name, value)] => if value.isEmpty then some name else none
  | _ => none

/-- The named values of a section.  A moment is made of parts, none of which is a setting. -/
def parts? (names : List String) : Datum → Option Members
  | moment _ => some []
  | d => members? names d

/-! ### With conversions -/

/-- A text, whether or not it is a moment. -/
def words? : Datum → Option String
  | text s => some s
  | moment s => some s
  | _ => none

/-- The words for a truth value. -/
def truthWords : List (String × Bool) :=
  [("true", true), ("on", true), ("yes", true), ("false", false), ("off", false), ("no", false)]

/-- The truth value that a text stands for. -/
def truth? (s : String) : Option Bool := truthWords.lookup s.toLower

/-- A truth value, or what can be told from zero. -/
def toBoolean? : Datum → Option Bool
  | boolean b => some b
  | integer n => some (n ≠ 0)
  | number x => some (x != 0.0)
  | d => do
    let s ← d.words?
    truth? s <|> if s = "1" then some true else if s = "0" then some false else none

/-- An unsigned word, or what can be rounded or counted. -/
def toNatural? : Datum → Option Nat
  | boolean b => some b.toNat
  | integer n => unsigned? n
  | number x => some x.round.toUInt64.toNat
  | d => do
    let s ← d.words?
    (truth? s).map Bool.toNat <|> Decimal.natural? s

/-- A number, or what stands for one. -/
def toNumber? : Datum → Option Float
  | boolean b => some (if b then 1.0 else 0.0)
  | integer n => some (nearest n)
  | number x => some x
  | d => do
    let s ← d.words?
    (truth? s).map (fun b => if b then 1.0 else 0.0) <|> Decimal.number? s

/-- A text, or what can be written as one. -/
def toText? : Datum → Option String
  | boolean b => some (toString b)
  | integer n => some (toString n)
  | number x => some (Decimal.plain.write x)
  | d => d.words?

/-- A choice by its name, or as the only name in a table. -/
def toChoice? : Datum → Option String
  | table [(name, _)] => some name
  | d => d.words?

/-- Whether a value is nothing. -/
def isNull : Datum → Bool
  | null => true
  | _ => false

end Datum

namespace Dialect

/-- Values are what they are. -/
def strict : Dialect where
  boolean? := Datum.boolean?
  natural? := Datum.natural?
  number? := Datum.number?
  text? := Datum.text?
  char? d := d.text?.bind Datum.lone?
  choice? := Datum.choice?
  isLeftOut _ := false
  members? := Datum.parts?

/-- Values are converted where that makes sense. -/
def lenient : Dialect where
  boolean? := Datum.toBoolean?
  natural? := Datum.toNatural?
  number? := Datum.toNumber?
  text? := Datum.toText?
  char? d := d.words?.bind Datum.lone?
  choice? := Datum.toChoice?
  isLeftOut := Datum.isNull
  members? := Datum.members?

end Dialect

end FuzzyForest
