/-
The textual form of instructions.

A token is a head and a weight, joined by the last colon: `t3:0.5` reads column 3, `t3[2]:0.5`
reads it two rows back, `o0[1]:0.5` reads an estimate and `and:0.5` is an operator.  The
placeholder `x` and the separator `;` stand alone.  `Instruction.token` writes a token,
`Instruction.ofToken` reads one and says what is wrong with a text that is none.
-/
import FuzzyForest.Decimal.Layout
import FuzzyForest.Decimal.Reading
import FuzzyForest.Rule.Instruction

namespace FuzzyForest

/-- Why a text is no token. -/
inductive TokenError
  /-- There is no colon. -/
  | missingWeight (token : String)
  /-- What follows the last colon is no number. -/
  | badWeight (text token : String)
  /-- What precedes the last colon is neither a terminal nor an operator. -/
  | unknownOperator (head : String)
  /-- The bracket of a lag is not closed. -/
  | unclosedLag (token : String)
  /-- A column, an output or a lag is no number. -/
  | badOperand (text token : String)
  /-- An estimate is read without a lag. -/
  | missingLag (token : String)
deriving DecidableEq, Repr

/-- The description of the fault. -/
def TokenError.message : TokenError → String
  | missingWeight token => "Missing weight in token '" ++ token ++ "'"
  | badWeight text token => "Bad weight '" ++ text ++ "' in token '" ++ token ++ "'"
  | unknownOperator head => "Unknown operator '" ++ head ++ "'"
  | unclosedLag token => "Unclosed lag in token '" ++ token ++ "'"
  | badOperand text token => "Bad operand '" ++ text ++ "' in token '" ++ token ++ "'"
  | missingLag token => "Lagged output without lag in token '" ++ token ++ "'"

/-! ### Cutting texts -/

namespace Text

/-- The parts of a text before and after the first occurrence of a character. -/
def splitFirst (c : Char) : List Char → Option (List Char × List Char)
  | [] => none
  | x :: xs =>
    if x = c then some ([], xs) else (splitFirst c xs).map fun (a, b) => (x :: a, b)

/-- The parts of a text before and after the last occurrence of a character. -/
def splitLast (c : Char) : List Char → Option (List Char × List Char)
  | [] => none
  | x :: xs =>
    match splitLast c xs with
    | some (a, b) => some (x :: a, b)
    | none => if x = c then some ([], xs) else none

/-- A text without its last character, if that is the given one. -/
def dropLast? (c : Char) (xs : List Char) : Option (List Char) :=
  if xs.getLast? = some c then some xs.dropLast else none

end Text

/-! ### Writing -/

namespace Instruction

/-- The part of a token before the weight. -/
def head {α : Type} (i : Instruction α) : String :=
  match i.opcode with
  | .noOp => "x"
  | .separator => ";"
  | .input => "t" ++ toString i.operand
  | .pastInput => "t" ++ toString i.operand ++ "[" ++ toString i.lag ++ "]"
  | .pastOutput => "o" ++ toString i.operand ++ "[" ++ toString i.lag ++ "]"
  | .processAll => "all"
  | op => op.mnemonic?.getD "?"

/-- The token of an instruction whose weights are written by `weight`. -/
def tokenWith {α : Type} (weight : α → String) (i : Instruction α) : String :=
  if i.isLive then i.head ++ ":" ++ weight i.weight else i.head

/-- The token of an instruction. -/
def token (i : Instruction Float) : String := i.tokenWith Decimal.plain.write

/-- The token with a fixed number of places in its weight. -/
def tokenFixed (places : Nat) (i : Instruction Float) : String := i.tokenWith (Decimal.fixed places)

/-! ### Reading -/

/-- The kind of terminal that the head of a token announces: a `t` reads a column, and an `o`
reads an estimate unless an `r` follows it, as it does in `or`. -/
def terminal? : List Char → Option Opcode
  | 't' :: _ => some .input
  | 'o' :: c :: _ => if c = 'r' then none else some .pastOutput
  | _ => none

/-- A column, an output or a lag. -/
def readOperand (token : String) (digits : List Char) : Except TokenError Nat :=
  match Decimal.natural? (String.ofList digits) with
  | some n => .ok n
  | none => .error (.badOperand (String.ofList digits) token)

/-- A terminal, from what stands between its letter and the colon. -/
def readTerminal (token : String) (opcode : Opcode) (operands : List Char) (weight : Float) :
    Except TokenError (Instruction Float) :=
  match Text.splitFirst '[' operands with
  | some (value, bracket) =>
    match Text.dropLast? ']' bracket with
    | none => .error (.unclosedLag token)
    | some lag => do
      let operand ← readOperand token value
      let lag ← readOperand token lag
      return if opcode = .input then pastInput operand lag weight else pastOutput operand lag weight
  | none =>
    if opcode = .input then do
      return input (← readOperand token operands) weight
    else .error (.missingLag token)

/-- The instruction that a token stands for. -/
def ofToken (token : String) : Except TokenError (Instruction Float) :=
  if token = "x" then .ok noOp
  else if token = ";" then .ok separator
  else
    match Text.splitLast ':' token.toList with
    | none => .error (.missingWeight token)
    | some (head, tail) =>
      match Decimal.number? (String.ofList tail) with
      | none => .error (.badWeight (String.ofList tail) token)
      | some weight =>
        match terminal? head with
        | some opcode => readTerminal token opcode head.tail weight
        | none =>
          match Opcode.ofMnemonic? (String.ofList head) with
          | some opcode => .ok (plain opcode weight)
          | none => .error (.unknownOperator (String.ofList head))

/-- The instruction of a token, or a placeholder for a text that is none; the placeholder keeps the
weight if there is one. -/
def ofTokenOrNoOp (token : String) : Instruction Float :=
  match ofToken token with
  | .ok i => i
  | .error _ =>
    let weight := (Text.splitLast ':' token.toList).bind fun (_, tail) =>
      Decimal.number? (String.ofList tail)
    plain .noOp (weight.getD 0.0)

/-- The fault of a text that is no token. -/
def tokenError? (token : String) : Option TokenError :=
  match ofToken token with
  | .ok _ => none
  | .error e => some e

end Instruction

/-- The text of a buffer: its tokens, separated by blanks. -/
def Code.text (code : Code Float) : String :=
  " ".intercalate (code.map Instruction.token)

/-- The text of a buffer with a fixed number of places in every weight. -/
def Code.textFixed (places : Nat) (code : Code Float) : String :=
  " ".intercalate (code.map (Instruction.tokenFixed places))

end FuzzyForest
