/-
The grammar of tokens.

A token is the placeholder, the separator, or a head and a weight that the last colon joins.
`IsHead` and `IsSpelled` say which texts these are and what they stand for, in terms of the readers
of words and of numbers alone; `ofToken` reads exactly these, and refuses every other text with a
failure of parsing.  It looks at the first two bytes of a head and drops one of them, which is a
whole character whenever it does so.
-/
import FuzzyForest.Error
import FuzzyForest.Proofs.Tokens
import FuzzyForest.Text.Encoded
import Mathlib

namespace FuzzyForest

namespace Decimal

/-- A word is written with digits, of which there is at least one, and maybe a sign in front. -/
lemma exists_of_natural? {text : String} {n : ℕ} (h : natural? text = some n) :
    ∃ digits : List Char, digits ≠ [] ∧ (∀ c ∈ digits, c.isDigit = true)
      ∧ (text.toList = '+' :: digits ∨ text.toList = digits) := by
  rw [natural?] at h
  dsimp only at h
  split at h <;> rw [Option.ite_none_right_eq_some] at h <;> obtain ⟨⟨hne, hall⟩, -⟩ := h
  · rename_i digits htext
    exact ⟨digits, hne, List.all_eq_true.mp hall, .inl htext⟩
  · exact ⟨text.toList, hne, List.all_eq_true.mp hall, .inr rfl⟩

/-- No other characters stand in a word. -/
lemma notMem_of_natural? {text : String} {n : ℕ} (h : natural? text = some n) {c : Char}
    (hplus : c ≠ '+') (hdigit : c.isDigit = false) : c ∉ text.toList := by
  obtain ⟨digits, -, hall, htext⟩ := exists_of_natural? h
  have hnot : c ∉ digits := fun hc => Bool.false_ne_true (hdigit ▸ hall c hc)
  rcases htext with htext | htext <;> rw [htext]
  · exact List.not_mem_cons_of_ne_of_not_mem hplus hnot
  · exact hnot

lemma ne_nil_of_natural? {text : String} {n : ℕ} (h : natural? text = some n) :
    text.toList ≠ [] := by
  obtain ⟨digits, hne, -, htext⟩ := exists_of_natural? h
  rcases htext with htext | htext <;> rw [htext]
  · exact List.cons_ne_nil _ _
  · exact hne

end Decimal

namespace Instruction

open Decimal (natural? number?)

/-! ### The grammar -/

/-- The texts in front of a weight, with the kind, the column or output and the lag that they stand
for. -/
inductive IsHead : String → Opcode → ℕ → ℕ → Prop
  | not : IsHead "not" .not 0 0
  | and : IsHead "and" .and 0 0
  | or : IsHead "or" .or 0 0
  | sum : IsHead "sum" .sum 0 0
  | prod : IsHead "prod" .prod 0 0
  | input {column : String} {n : ℕ} : natural? column = some n → IsHead ("t" ++ column) .input n 0
  | pastInput {column lag : String} {n l : ℕ} :
      natural? column = some n → natural? lag = some l →
      IsHead ("t" ++ column ++ "[" ++ lag ++ "]") .pastInput n l
  | pastOutput {output lag : String} {n l : ℕ} :
      natural? output = some n → natural? lag = some l →
      IsHead ("o" ++ output ++ "[" ++ lag ++ "]") .pastOutput n l

/-- The tokens, with the instructions that they stand for. -/
inductive IsSpelled : String → Instruction Float → Prop
  | noOp : IsSpelled "x" ⟨.noOp, 0, 0, 0.0⟩
  | separator : IsSpelled ";" ⟨.separator, 0, 0, 0.0⟩
  | weighted {head weight : String} {op : Opcode} {n l : ℕ} {w : Float} :
      IsHead head op n l → ':' ∉ weight.toList → number? weight = some w →
      IsSpelled (head ++ ":" ++ weight) ⟨op, n, l, w⟩

/-! ### Heads -/

lemma isHead_of_mnemonic {op : Opcode} {word : String} (h : op.mnemonic? = some word) :
    IsHead word op 0 0 := by
  cases op <;> cases h
  · exact .not
  · exact .and
  · exact .or
  · exact .sum
  · exact .prod

section Terminals

variable {text value lag token : String} {n l : ℕ} {w : Float}

lemma readOperand_eq (h : natural? text = some n) : readOperand token text.toList = .ok n := by
  rw [readOperand, String.ofList_toList, h]

lemma natural?_of_readOperand {digits : List Char} (h : readOperand token digits = .ok n) :
    natural? (String.ofList digits) = some n := by
  rw [readOperand] at h
  split at h
  · rename_i hn
    cases h
    exact hn
  · cases h

lemma readTerminal_input (h : natural? value = some n) :
    readTerminal token .input value.toList w = .ok (input n w) := by
  have hbracket := Decimal.notMem_of_natural? h (c := '[') (by decide) (by decide)
  rw [readTerminal, Text.splitFirst_eq_none hbracket]
  simp only [if_pos, readOperand_eq h]
  rfl

lemma readTerminal_bracket (hn : natural? value = some n) (hl : natural? lag = some l)
    (opcode : Opcode) :
    readTerminal token opcode (value.toList ++ '[' :: (lag.toList ++ [']'])) w
      = .ok (if opcode = .input then pastInput n l w else pastOutput n l w) := by
  have hbracket := Decimal.notMem_of_natural? hn (c := '[') (by decide) (by decide)
  rw [readTerminal, Text.splitFirst_append hbracket]
  simp only [Text.dropLast?_append_singleton, readOperand_eq hn, readOperand_eq hl]
  rfl

/-- What a terminal is read from: the word of a column, or the words of a column or an output and
of a lag in brackets. -/
lemma exists_of_readTerminal {opcode : Opcode} {operands : List Char} {i : Instruction Float}
    (h : readTerminal token opcode operands w = .ok i) :
    (∃ value n, operands = value.toList ∧ natural? value = some n ∧ opcode = .input
        ∧ i = input n w)
      ∨ ∃ value lag n l, operands = value.toList ++ '[' :: (lag.toList ++ [']'])
        ∧ natural? value = some n ∧ natural? lag = some l
        ∧ i = if opcode = .input then pastInput n l w else pastOutput n l w := by
  rw [readTerminal] at h
  split at h
  · rename_i value bracket hsplit
    split at h
    · cases h
    · rename_i lag hdrop
      obtain ⟨n, hn, h⟩ := exists_of_bind_eq_ok h
      obtain ⟨l, hl, h⟩ := exists_of_bind_eq_ok h
      refine .inr ⟨.ofList value, .ofList lag, n, l, ?_, natural?_of_readOperand hn,
        natural?_of_readOperand hl, (Except.ok.inj h).symm⟩
      rw [Text.eq_of_splitFirst hsplit, Text.eq_of_dropLast? hdrop, String.toList_ofList,
        String.toList_ofList]
  · split at h
    · rename_i hinput
      obtain ⟨n, hn, h⟩ := exists_of_bind_eq_ok h
      exact .inl ⟨.ofList operands, n, String.toList_ofList.symm, natural?_of_readOperand hn,
        hinput, (Except.ok.inj h).symm⟩
    · cases h

end Terminals

/-- The letters of terminals. -/
lemma eq_cons_of_terminal? {cs : List Char} {op : Opcode} (h : terminal? cs = some op) :
    (cs = 't' :: cs.tail ∧ op = .input) ∨ (cs = 'o' :: cs.tail ∧ op = .pastOutput) := by
  rw [terminal?.eq_def] at h
  split at h
  · cases h
    exact .inl ⟨rfl, rfl⟩
  · split at h
    · cases h
    · cases h
      exact .inr ⟨rfl, rfl⟩
  · cases h

/-- The word of an output does not start with the second letter of `or`. -/
lemma terminal?_output {output : String} {n : ℕ} (h : natural? output = some n)
    (rest : List Char) : terminal? ('o' :: (output.toList ++ rest)) = some .pastOutput := by
  have hr := Decimal.notMem_of_natural? h (c := 'r') (by decide) (by decide)
  cases hchars : output.toList with
  | nil => exact absurd hchars (Decimal.ne_nil_of_natural? h)
  | cons c cs =>
    rw [hchars] at hr
    exact if_neg (List.ne_of_not_mem_cons hr).symm

section Weighted

variable {head weight : String} {w : Float} (hcolon : ':' ∉ weight.toList)
  (hw : number? weight = some w)

include hcolon hw

lemma ofToken_of_mnemonic {op : Opcode} (h : op.mnemonic? = some head) :
    ofToken (head ++ ":" ++ weight) = .ok (plain op w) := by
  rw [ofToken_append hcolon hw, terminal?_mnemonic h]
  dsimp only
  rw [Opcode.ofMnemonic?_eq_some_iff.mpr h]

/-- A head of the grammar is read. -/
lemma ofToken_of_isHead {op : Opcode} {n l : ℕ} (h : IsHead head op n l) :
    ofToken (head ++ ":" ++ weight) = .ok ⟨op, n, l, w⟩ := by
  cases h with
  | not | and | or | sum | prod => exact ofToken_of_mnemonic hcolon hw rfl
  | @input column n hn =>
    have hhead : ("t" ++ column).toList = 't' :: column.toList := String.toList_append
    rw [ofToken_append hcolon hw, hhead]
    exact readTerminal_input hn
  | @pastInput column lag n l hn hl =>
    have hhead : ("t" ++ column ++ "[" ++ lag ++ "]").toList
        = 't' :: (column.toList ++ '[' :: (lag.toList ++ [']'])) := by
      simp
    rw [ofToken_append hcolon hw, hhead]
    exact readTerminal_bracket hn hl .input
  | @pastOutput output lag n l hn hl =>
    have hhead : ("o" ++ output ++ "[" ++ lag ++ "]").toList
        = 'o' :: (output.toList ++ '[' :: (lag.toList ++ [']'])) := by
      simp
    rw [ofToken_append hcolon hw, hhead, terminal?_output hn]
    exact readTerminal_bracket hn hl .pastOutput

/-- What is read in front of a weight is a head of the grammar. -/
lemma isHead_of_ofToken {i : Instruction Float} (h : ofToken (head ++ ":" ++ weight) = .ok i) :
    ∃ op n l, IsHead head op n l ∧ i = ⟨op, n, l, w⟩ := by
  rw [ofToken_append hcolon hw] at h
  have hchars (cs : List Char) (hcs : head.toList = cs) : head = .ofList cs := by
    rw [← hcs, String.ofList_toList]
  split at h
  · rename_i opcode hterminal
    rcases eq_cons_of_terminal? hterminal with ⟨hhead, rfl⟩ | ⟨hhead, rfl⟩ <;>
      rcases exists_of_readTerminal h with
        ⟨value, n, htail, hn, hop, rfl⟩ | ⟨value, lag, n, l, htail, hn, hl, rfl⟩ <;>
      rw [htail] at hhead
    · refine ⟨.input, n, 0, ?_, rfl⟩
      convert IsHead.input hn
      exact String.toList_inj.mp (by rw [hhead, String.toList_append]; rfl)
    · refine ⟨.pastInput, n, l, ?_, rfl⟩
      convert IsHead.pastInput hn hl
      exact String.toList_inj.mp (by rw [hhead]; simp)
    · cases hop
    · refine ⟨.pastOutput, n, l, ?_, rfl⟩
      convert IsHead.pastOutput hn hl
      exact String.toList_inj.mp (by rw [hhead]; simp)
  · split at h
    · rename_i op hop
      cases h
      exact ⟨op, 0, 0, isHead_of_mnemonic (Opcode.ofMnemonic?_eq_some_iff.mp hop), rfl⟩
    · cases h

end Weighted

/-- **The texts that are read are those of the grammar**, and they are read as what they stand
for. -/
theorem ofToken_eq_ok_iff {token : String} {i : Instruction Float} :
    ofToken token = .ok i ↔ IsSpelled token i := by
  constructor
  · intro h
    by_cases hx : token = "x"
    · rw [ofToken, if_pos hx, noOp, ofNat_zero] at h
      cases h
      exact hx ▸ .noOp
    by_cases hsemicolon : token = ";"
    · rw [ofToken, if_neg hx, if_pos hsemicolon, separator, ofNat_zero] at h
      cases h
      exact hsemicolon ▸ .separator
    -- a third way to be read is to fall apart at a colon, with a number behind it
    have hparts := h
    rw [ofToken, if_neg hx, if_neg hsemicolon] at hparts
    split at hparts
    · cases hparts
    · rename_i head weight hsplit
      split at hparts
      · cases hparts
      · rename_i w hw
        obtain ⟨htoken, hcolon⟩ := Text.eq_of_splitLast hsplit
        have htoken : token = .ofList head ++ ":" ++ .ofList weight :=
          String.toList_inj.mp (by rw [htoken]; simp)
        rw [htoken] at h
        have hcolon : ':' ∉ (String.ofList weight).toList := String.toList_ofList ▸ hcolon
        obtain ⟨op, n, l, hhead, rfl⟩ := isHead_of_ofToken hcolon hw h
        exact htoken ▸ .weighted hhead hcolon hw
  · rintro (_ | _ | ⟨hhead, hcolon, hw⟩)
    · show Except.ok noOp = _
      rw [noOp, ofNat_zero]
      rfl
    · show Except.ok separator = _
      rw [separator, ofNat_zero]
      rfl
    · exact ofToken_of_isHead hcolon hw hhead

lemma exists_error_iff {token : String} :
    (∃ cause, ofToken token = .error cause) ↔ ¬ ∃ i, IsSpelled token i := by
  simp only [← ofToken_eq_ok_iff]
  cases ofToken token with
  | error cause => simp
  | ok i => simp

/-! ### Bytes -/

/-- The kind of terminal that the bytes of a head announce. -/
def announced? : Encoded → Option Opcode
  | [] => none
  | b :: bytes =>
    if b = 't'.toUInt8 then some .input
    else if b = 'o'.toUInt8 then
      match bytes with
      | [] => none
      | next :: _ => if next = 'r'.toUInt8 then none else some .pastOutput
    else none

lemma ofChars_cons (c : Char) (cs : List Char) :
    Encoded.ofChars (c :: cs) = String.utf8EncodeChar c ++ Encoded.ofChars cs := List.flatMap_cons

lemma toNat_toUInt8 {c : Char} (h : c.toNat < Encoded.lowest) : c.toUInt8.toNat = c.toNat := by
  have hlt : c.val.toNat < 2 ^ 8 := lt_trans h (by decide)
  rw [Char.toUInt8, UInt32.toNat_toUInt8, Nat.mod_eq_of_lt hlt]
  rfl

/-- All other characters start with a byte that is not plain. -/
lemma exists_lowest_le {c : Char} (h : Encoded.lowest ≤ c.toNat) :
    ∃ b bytes, String.utf8EncodeChar c = b :: bytes ∧ Encoded.lowest ≤ b.toNat := by
  have hc : ¬ c.val.toNat ≤ 127 := Nat.not_le_of_gt h
  rw [String.utf8EncodeChar]
  simp only [if_neg hc, Encoded.lowest]
  -- characters of two, three and four bytes
  split
  · refine ⟨_, _, rfl, ?_⟩
    rw [UInt8.toNat_ofNat']
    omega
  · split
    · refine ⟨_, _, rfl, ?_⟩
      rw [UInt8.toNat_ofNat']
      omega
    · refine ⟨_, _, rfl, ?_⟩
      rw [UInt8.toNat_ofNat']
      omega

/-- A character starts with the byte of a plain one only if it is that one. -/
lemma exists_utf8EncodeChar (c : Char) :
    ∃ b bytes, String.utf8EncodeChar c = b :: bytes
      ∧ ∀ plain : Char, plain.toNat < Encoded.lowest → (b = plain.toUInt8 ↔ c = plain) := by
  rcases Nat.lt_or_ge c.toNat Encoded.lowest with hc | hc
  · have hone : c.utf8Size = 1 :=
      Char.utf8Size_eq_one_iff.mpr (UInt32.le_iff_toNat_le.mpr (Nat.le_of_lt_succ hc))
    refine ⟨c.toUInt8, [], String.utf8EncodeChar_eq_singleton hone, fun plain hplain => ?_⟩
    refine ⟨fun h => ?_, fun h => h ▸ rfl⟩
    rw [← Char.toNat_inj, ← toNat_toUInt8 hc, ← toNat_toUInt8 hplain, h]
  · obtain ⟨b, bytes, hbytes, hb⟩ := exists_lowest_le hc
    refine ⟨b, bytes, hbytes, fun plain hplain => ⟨fun h => ?_, fun h => ?_⟩⟩
    · rw [h, toNat_toUInt8 hplain] at hb
      exact absurd hplain (Nat.not_lt_of_ge hb)
    · rw [h] at hc
      exact absurd hplain (Nat.not_lt_of_ge hc)

/-- The bytes of a head announce what its characters do. -/
lemma announced?_ofChars (head : List Char) :
    announced? (Encoded.ofChars head) = terminal? head := by
  cases head with
  | nil => rfl
  | cons c rest =>
    obtain ⟨b, bytes, hc, hplain⟩ := exists_utf8EncodeChar c
    rw [ofChars_cons, hc, List.cons_append, announced?.eq_def]
    dsimp only
    simp only [hplain 't' (by decide), hplain 'o' (by decide)]
    split
    · rename_i ht
      rw [ht]
      rfl
    split
    · rename_i ho
      subst ho
      obtain ⟨-, rfl⟩ := List.cons.inj hc
      cases rest with
      | nil => rfl
      | cons c' rest =>
        obtain ⟨b', bytes', hc', hplain2⟩ := exists_utf8EncodeChar c'
        rw [ofChars_cons, hc', terminal?]
        exact ite_congr (propext (hplain2 'r' (by decide))) (fun _ => rfl) fun _ => rfl
    · rename_i ht ho
      rw [terminal?.eq_def]
      split
      · rename_i h
        exact absurd (List.cons.inj h).1 ht
      · rename_i h
        exact absurd (List.cons.inj h).1 ho
      · rfl

/-- The first byte of the head of a terminal is its letter. -/
lemma drop_ofChars {head : List Char} {op : Opcode} (h : terminal? head = some op) :
    (Encoded.ofChars head).drop 1 = Encoded.ofChars head.tail := by
  rcases eq_cons_of_terminal? h with ⟨hhead, -⟩ | ⟨hhead, -⟩ <;>
  · rw [hhead, ofChars_cons]
    rfl

/-- **The reader of tokens accepts exactly its grammar.**  A text is read if and only if the grammar
derives it, as the one instruction that it stands for there, and every other text is refused with a
failure of parsing.  Where the reader looks at the bytes of a head, they announce what its
characters do, and the byte that it drops is a whole character. -/
theorem reads_exactly_grammar (token : String) :
    (∀ i, ofToken token = .ok i ↔ IsSpelled token i)
      ∧ ((∃ cause, ofToken token = .error cause ∧ (Error.token cause).kind = .parse)
          ↔ ¬ ∃ i, IsSpelled token i)
      ∧ ∀ head weight, Text.splitLast ':' token.toList = some (head, weight) →
          announced? (Encoded.ofChars head) = terminal? head
            ∧ ∀ op, terminal? head = some op →
                (Encoded.ofChars head).drop 1 = Encoded.ofChars head.tail := by
  refine ⟨fun i => ofToken_eq_ok_iff, ?_, fun head _ _ => ⟨announced?_ofChars head, ?_⟩⟩
  · rw [← exists_error_iff]
    exact exists_congr fun cause => and_iff_left rfl
  · exact fun op => drop_ofChars

example : ofToken "o+1[007]:-.5" = .ok (pastOutput 1 7 (-0.5)) := by decide +kernel

end Instruction

end FuzzyForest
