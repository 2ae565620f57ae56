/-
Structured dumps of forests.

A dump lists the instructions of a forest with all their fields as a JSON array of objects.
`Forest.dump` writes it and `Code.ofDump` reads it back; a reader also accepts the fields of an
instruction as a plain list.
-/
import FuzzyForest.Forest.Basic
import FuzzyForest.Text.Json

namespace FuzzyForest

/-- Weights in dumps show a point, and an exponent when they are very small or very large. -/
def Decimal.dumped : Decimal.Layout where
  positional := some (-5, 16)
  wholePoint := true
  exponentPlus := true
  tie := .toEven
  undefined := "null"
  infinite := "null"

/-- A weight in a dump; what is no number is left out. -/
def Instruction.dumpedWeight (x : Float) : String :=
  if x.isFinite then Decimal.dumped.write x else "null"

/-- The dump of an instruction. -/
def Instruction.dump (i : Instruction Float) : String :=
  "\x7b\"opcode\":\"" ++ i.opcode.name ++ "\",\"value\":" ++ toString i.operand ++ ",\"lag\":"
    ++ toString i.lag ++ ",\"weight\":" ++ dumpedWeight i.weight ++ "\x7d"

/-- The dump of a buffer. -/
def Code.dump (code : Code Float) : String :=
  "[" ++ ",".intercalate (code.map Instruction.dump) ++ "]"

/-! ### Reading -/

namespace Dump

/-- The kind of an instruction: its name, or an object whose only member has that name and no
value. -/
def opcode? : Json → Option Opcode
  | .string (some name) => Opcode.ofName? name
  | .object [(some name, .null)] => Opcode.ofName? name
  | _ => none

/-- An unsigned word. -/
def word? : Json → Option Nat
  | .integer n => if 0 ≤ n ∧ n ≤ Decimal.maxWord then some n.toNat else none
  | _ => none

/-- A finite number. -/
def weight? : Json → Option Float
  | .number x => if x.isFinite then some x else none
  | .integer n =>
    let x := Decimal.signed (n < 0) (Decimal.ofScientific n.natAbs 0)
    if x.isFinite then some x else none
  | _ => none

/-- The names of the fields. -/
def fields : List String := ["opcode", "value", "lag", "weight"]

/-- The only member of a name. -/
def member? (members : List (Option String × Json)) (name : String) : Option Json :=
  match members.filter fun (n, _) => n = some name with
  | [(_, v)] => some v
  | _ => none

/-- An instruction.  All members must have names, but only those of fields count. -/
def instruction? : Json → Option (Instruction Float)
  | .object members =>
    if members.any fun (n, _) => n.isNone then none
    else do
      build (← member? members "opcode") (← member? members "value") (← member? members "lag")
        (← member? members "weight")
  | .array [opcode, value, lag, weight] => build opcode value lag weight
  | _ => none
where
  /-- An instruction from its fields. -/
  build (opcode value lag weight : Json) : Option (Instruction Float) := do
    return ⟨← opcode? opcode, ← word? value, ← word? lag, ← weight? weight⟩

end Dump

/-- The buffer that a dump lists. -/
def Code.ofDump (text : String) : Except Error (Code Float) :=
  match Json.read text with
  | some (.array items) =>
    match items.mapM Dump.instruction? with
    | some code => .ok code
    | none => .error .badDump
  | _ => .error .badDump

end FuzzyForest
