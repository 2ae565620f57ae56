/-
Tokens are read back.

No token holds a blank, and none a colon but the one before its weight.  A text therefore falls
apart into the tokens that it was made of, and a token into its head and its weight.  Heads differ
in their first letters, the number of a column or an output ends where a bracket opens, and digits
spell the number that they were written for.  What a token does not show is the weight of a
placeholder or a separator: `Instruction.bare` leaves it out.
-/
import FuzzyForest.Rule.Token
import FuzzyForest.Text.Blank
import Mathlib

namespace FuzzyForest

/-! ### Cutting texts -/

namespace Text

/-- A character at which no text is cut into words and no token into parts. -/
def IsInner (c : Char) : Prop := isBlank c = false ∧ c ≠ ':'

instance : DecidablePred IsInner :=
  fun c => inferInstanceAs (Decidable (isBlank c = false ∧ c ≠ ':'))

lemma isInner_of_isDigit {c : Char} (h : c.isDigit = true) : IsInner c := by
  simp only [Char.isDigit, Bool.and_eq_true, decide_eq_true_eq, ge_iff_le, UInt32.le_iff_toNat_le]
    at h
  have low : 0x30 ≤ c.toNat := h.1
  have high : c.toNat ≤ 0x39 := h.2
  refine ⟨?_, ?_⟩
  · simp [isBlank, blankRanges]
    omega
  · rintro rfl
    revert high
    decide

/-- Characters that are not blank go on with the word. -/
lemma wordsFrom_append {w : List Char} (hw : ∀ c ∈ w, isBlank c = false) (word rest : List Char) :
    wordsFrom word (w ++ rest) = wordsFrom (w.reverse ++ word) rest := by
  induction w generalizing word with
  | nil => rfl
  | cons c w ih =>
    obtain ⟨hc, hw⟩ := List.forall_mem_cons.mp hw
    rw [List.cons_append, wordsFrom, hc, if_neg Bool.false_ne_true, ih hw, List.reverse_cons,
      List.append_assoc, List.singleton_append]

/-- **A text that words are joined to falls apart into these words.** -/
theorem words_intercalate {ws : List String}
    (h : ∀ w ∈ ws, w.toList ≠ [] ∧ ∀ c ∈ w.toList, isBlank c = false) :
    words (" ".intercalate ws) = ws := by
  have hfrom : wordsFrom [] (" ".intercalate ws).toList = ws.map String.toList := by
    induction ws with
    | nil => rfl
    | cons w ws ih =>
      obtain ⟨⟨hne, hw⟩, hws⟩ := List.forall_mem_cons.mp h
      have hword : w.toList.reverse ≠ [] := by simpa using hne
      cases ws with
      | nil =>
        have hlast := wordsFrom_append hw [] []
        rw [List.append_nil, List.append_nil, wordsFrom, if_neg hword, List.reverse_reverse]
          at hlast
        simpa using hlast
      | cons v ws =>
        rw [String.intercalate_cons_cons, String.toList_append, String.toList_append,
          List.append_assoc, wordsFrom_append hw, List.append_nil]
        show wordsFrom w.toList.reverse (' ' :: (" ".intercalate (v :: ws)).toList) = _
        rw [wordsFrom, if_pos (by decide), if_neg hword, ih hws, List.reverse_reverse]
        rfl
  rw [words, hfrom, List.map_map]
  simp [Function.comp_def]

section Cuts

variable {c : Char} {a b : List Char}

lemma splitFirst_eq_none (h : c ∉ a) : splitFirst c a = none := by
  induction a with
  | nil => rfl
  | cons x a ih =>
    obtain ⟨hx, ha⟩ := not_or.mp (List.mem_cons.not.mp h)
    rw [splitFirst, if_neg (Ne.symm hx), ih ha, Option.map_none]

lemma splitFirst_append (h : c ∉ a) : splitFirst c (a ++ c :: b) = some (a, b) := by
  induction a with
  | nil => rw [List.nil_append, splitFirst, if_pos rfl]
  | cons x a ih =>
    obtain ⟨hx, ha⟩ := not_or.mp (List.mem_cons.not.mp h)
    rw [List.cons_append, splitFirst, if_neg (Ne.symm hx), ih ha, Option.map_some]

lemma splitLast_eq_none (h : c ∉ b) : splitLast c b = none := by
  induction b with
  | nil => rfl
  | cons x b ih =>
    obtain ⟨hx, hb⟩ := not_or.mp (List.mem_cons.not.mp h)
    rw [splitLast, ih hb]
    exact if_neg (Ne.symm hx)

lemma splitLast_append (h : c ∉ b) : splitLast c (a ++ c :: b) = some (a, b) := by
  induction a with
  | nil =>
    rw [List.nil_append, splitLast, splitLast_eq_none h]
    exact if_pos rfl
  | cons x a ih => rw [List.cons_append, splitLast, ih]

lemma dropLast?_append_singleton : dropLast? c (a ++ [c]) = some a := by
  rw [dropLast?, List.getLast?_concat, if_pos rfl, List.dropLast_concat]

lemma eq_of_splitFirst {xs : List Char} (h : splitFirst c xs = some (a, b)) :
    xs = a ++ c :: b := by
  induction xs generalizing a with
  | nil => cases h
  | cons x xs ih =>
    rw [splitFirst] at h
    split at h
    · rename_i hx
      cases h
      rw [hx, List.nil_append]
    · obtain ⟨⟨a', b'⟩, htail, hpair⟩ := Option.map_eq_some_iff.mp h
      cases hpair
      rw [ih htail, List.cons_append]

lemma splitLast_eq_none_iff {xs : List Char} : splitLast c xs = none ↔ c ∉ xs := by
  refine ⟨fun h => ?_, splitLast_eq_none⟩
  induction xs with
  | nil => exact List.not_mem_nil
  | cons x xs ih =>
    rw [splitLast] at h
    split at h
    · cases h
    · rename_i hnone
      rw [ite_eq_right_iff] at h
      rw [List.mem_cons, not_or]
      exact ⟨fun hx => Option.some_ne_none _ (h hx.symm), ih hnone⟩

lemma eq_of_splitLast {xs : List Char} (h : splitLast c xs = some (a, b)) :
    xs = a ++ c :: b ∧ c ∉ b := by
  induction xs generalizing a with
  | nil => cases h
  | cons x xs ih =>
    rw [splitLast] at h
    split at h
    · rename_i a' b' htail
      cases h
      obtain ⟨hxs, hb⟩ := ih htail
      exact ⟨by rw [hxs, List.cons_append], hb⟩
    · rename_i hnone
      split at h
      · rename_i hx
        cases h
        exact ⟨by rw [hx, List.nil_append], splitLast_eq_none_iff.mp hnone⟩
      · cases h

lemma eq_of_dropLast? {xs : List Char} (h : dropLast? c xs = some a) : xs = a ++ [c] := by
  rw [dropLast?, Option.ite_none_right_eq_some] at h
  obtain ⟨hlast, hinit⟩ := h
  obtain ⟨ys, rfl⟩ := List.getLast?_eq_some_iff.mp hlast
  rw [List.dropLast_concat, Option.some.injEq] at hinit
  rw [hinit]

end Cuts

end Text

/-! ### Numbers -/

namespace Decimal

lemma isDigit_of_mem_digitsOf {n : ℕ} {c : Char} (h : c ∈ digitsOf n) : c.isDigit = true :=
  Nat.isDigit_of_mem_toDigits (by decide) (by decide) h

lemma toList_toString (n : ℕ) : (toString n).toList = digitsOf n := by
  rw [Nat.toString_eq_ofList_toDigits, String.toList_ofList]
  rfl

/-- Digits spell the number that they were written for. -/
lemma digitsValue_digitsOf (n : ℕ) : digitsValue (digitsOf n) = n := by
  rw [digitsValue, ← Nat.ofDigitChars_eq_foldl]
  exact Nat.ofDigitChars_toDigits (by decide) (by decide)

/-- A word is read back. -/
theorem natural?_toString {n : ℕ} (h : n ≤ maxWord) : natural? (toString n) = some n := by
  have hdigit : ∀ c ∈ digitsOf n, c.isDigit = true := fun c => isDigit_of_mem_digitsOf
  have hne : digitsOf n ≠ [] := Nat.toDigits_ne_nil
  have hvalue := digitsValue_digitsOf n
  rw [natural?, toList_toString]
  -- the first character is a digit, and so no sign
  generalize digitsOf n = digits at hdigit hne hvalue
  cases digits with
  | nil => exact absurd rfl hne
  | cons c rest =>
    have hplus : c ≠ '+' := by
      rintro rfl
      have := hdigit '+' List.mem_cons_self
      revert this
      decide
    have hall : (c :: rest).all Char.isDigit = true := List.all_eq_true.mpr hdigit
    dsimp only
    split
    · rename_i hcons
      exact absurd (List.cons.inj hcons).1 hplus
    · rw [if_pos ⟨hne, hall⟩, hvalue, if_pos h]

lemma le_maxWord_of_natural? {text : String} {n : ℕ} (h : natural? text = some n) :
    n ≤ maxWord := by
  simp only [natural?, Option.ite_none_right_eq_some, Option.some.injEq] at h
  obtain ⟨-, hle, rfl⟩ := h
  exact hle

/-- A decimal without an exponent consists of digits and a point. -/
lemma isInner_of_mem_positionalText {d : Dec} {c : Char} (h : c ∈ positionalText false d) :
    Text.IsInner c := by
  have hdigits : ∀ c ∈ digitsOf d.digits, Text.IsInner c :=
    fun c hc => Text.isInner_of_isDigit (isDigit_of_mem_digitsOf hc)
  have hzeros : ∀ n, ∀ c ∈ zeros n, Text.IsInner c := by
    intro n c hc
    rw [List.eq_of_mem_replicate hc]
    decide
  have hpoint : Text.IsInner '.' := by decide
  have hzero : Text.IsInner '0' := by decide
  unfold positionalText at h
  dsimp only at h
  split at h
  · simp only [Bool.false_eq_true, if_false, List.append_nil, List.mem_append] at h
    rcases h with h | h
    · exact hdigits c h
    · exact hzeros _ c h
  · split at h
    · simp only [List.mem_append, List.mem_cons] at h
      rcases h with h | rfl | h
      · exact hdigits c (List.mem_of_mem_take h)
      · exact hpoint
      · exact hdigits c (List.mem_of_mem_drop h)
    · simp only [List.cons_append, List.mem_cons, List.mem_append] at h
      rcases h with rfl | rfl | h | h
      · exact hzero
      · exact hpoint
      · exact hzeros _ c h
      · exact hdigits c h

lemma isInner_of_all {text : String} (h : (text.toList.all fun c => decide (Text.IsInner c)) = true)
    {c : Char} (hc : c ∈ text.toList) : Text.IsInner c :=
  of_decide_eq_true (List.all_eq_true.mp h c hc)

/-- The plain text of a number is not cut anywhere. -/
theorem isInner_of_mem_write {x : Float} {c : Char} (h : c ∈ (plain.write x).toList) :
    Text.IsInner c := by
  have hsign (negative : Bool) : ((if negative then "-" else "").toList.all
      fun c => decide (Text.IsInner c)) = true := by
    cases negative <;> decide +kernel
  have hundefined : (plain.undefined.toList.all fun c => decide (Text.IsInner c)) = true := by
    decide +kernel
  have hinfinite : (plain.infinite.toList.all fun c => decide (Text.IsInner c)) = true := by
    decide +kernel
  simp only [Layout.write] at h
  split at h
  · exact isInner_of_all hundefined h
  · rw [String.toList_append, List.mem_append] at h
    rcases h with h | h
    · exact isInner_of_all (hsign _) h
    · exact isInner_of_all hinfinite h
  · rw [String.toList_append, List.mem_append, String.toList_ofList] at h
    rcases h with h | h
    · exact isInner_of_all (hsign _) h
    · exact isInner_of_mem_positionalText h

/-- The plain text of a number stands for that number. -/
def ReadsBack (x : Float) : Prop := number? (plain.write x) = some x

instance : DecidablePred ReadsBack :=
  fun x => inferInstanceAs (Decidable (number? (plain.write x) = some x))

open Float.Model in
/-- The bits of an infinite number. -/
lemma toBits_of_unpack {x : Float} {s : UnpackedFloat.Sign}
    (h : x.toModel.unpack = .infinity s) :
    x.toBits.toBitVec = UnpackedFloat.packedInfinity Format.binary64 s := by
  have hpack := @UnpackedFloat.pack_unpack Format.binary64 x.toBits.toBitVec (by decide)
  have hunpack : UnpackedFloat.unpack Format.binary64 x.toBits.toBitVec = .infinity s := h
  have hne : UnpackedFloat.packedInfinity Format.binary64 s
      ≠ UnpackedFloat.packedNaN Format.binary64 := by
    cases s <;> decide
  rw [hunpack, UnpackedFloat.pack] at hpack
  split at hpack
  · exact absurd hpack hne
  · exact hpack.symm

open Float.Model in
/-- Infinite numbers and undefined ones are read back. -/
theorem readsBack_of_not_isFinite {x : Float} (h : x.isFinite = false) : ReadsBack x := by
  cases hx : x.toModel.unpack with
  | notANumber =>
    have hnan : x.isNaN = true := by
      show UnpackedFloat.isNaN x.toModel.unpack = true
      rw [hx]
      rfl
    have hx : x = Float.nan := by simpa using hnan
    rw [hx]
    decide +kernel
  | infinity s =>
    have hbits := toBits_of_unpack hx
    cases s with
    | positive =>
      have hx : x = 1.0 / 0.0 := by
        rw [← Float.toBits_inj, ← UInt64.toBitVec_inj, hbits]
        decide +kernel
      rw [hx]
      decide +kernel
    | negative =>
      have hx : x = -(1.0 / 0.0) := by
        rw [← Float.toBits_inj, ← UInt64.toBitVec_inj, hbits]
        decide +kernel
      rw [hx]
      decide +kernel
  | _ =>
    have hfinite : UnpackedFloat.isFinite x.toModel.unpack = false := h
    rw [hx] at hfinite
    cases hfinite

end Decimal

/-! ### Instructions -/

namespace Instruction

open Decimal (ReadsBack digitsOf maxWord)

/-- The instruction without the weight that its token does not show. -/
def bare (i : Instruction Float) : Instruction Float :=
  if i.isLive then i else { i with weight := 0.0 }

/-- An instruction of which a token shows everything but the weight of a placeholder or a
separator. -/
structure IsWritable (i : Instruction Float) : Prop where
  notAggregate : i.isAggregate = false
  operand : i.opcode.isTerminal = false → i.operand = 0
  lag : i.opcode ≠ .pastInput → i.opcode ≠ .pastOutput → i.lag = 0

/-- An instruction of which a token shows everything. -/
structure IsShown (i : Instruction Float) : Prop extends IsWritable i where
  weight : i.isLive = false → i.weight = 0.0

/-- The numbers in an instruction are words. -/
structure FitsWords (i : Instruction Float) : Prop where
  operand : i.operand ≤ maxWord
  lag : i.lag ≤ maxWord

/-- The weight of an instruction is read back, if it takes part in a rule at all. -/
def WeightReadsBack (i : Instruction Float) : Prop := i.isLive = true → ReadsBack i.weight

section Bare

variable (i : Instruction Float)

@[simp] lemma opcode_bare : i.bare.opcode = i.opcode := by
  rw [bare]
  split <;> rfl

@[simp] lemma isSeparator_bare : i.bare.isSeparator = i.isSeparator := by
  rw [isSeparator, opcode_bare, isSeparator]

variable {i}

lemma bare_of_isLive (h : i.isLive = true) : i.bare = i := if_pos h

lemma IsShown.bare_eq (h : i.IsShown) : i.bare = i := by
  cases hi : i.isLive with
  | true => exact bare_of_isLive hi
  | false => rw [bare, hi, if_neg Bool.false_ne_true, ← h.weight hi]

/-- A token does not show the weight that is left out. -/
@[simp] lemma token_bare : i.bare.token = i.token := by
  rcases i with ⟨op, v, l, w⟩
  cases op <;> rfl

end Bare

/-! ### Reading tokens -/

/-- The head and the weight of a token are found at its last colon. -/
lemma ofToken_append {weight : String} {w : Float} (hcolon : ':' ∉ weight.toList)
    (hw : Decimal.number? weight = some w) (head : String) :
    ofToken (head ++ ":" ++ weight) = match terminal? head.toList with
      | some opcode => readTerminal (head ++ ":" ++ weight) opcode head.toList.tail w
      | none => match Opcode.ofMnemonic? head with
        | some opcode => .ok (.plain opcode w)
        | none => .error (.unknownOperator head) := by
  have hlist : (head ++ ":" ++ weight).toList = head.toList ++ ':' :: weight.toList := by
    rw [String.toList_append, String.toList_append, List.append_assoc]
    rfl
  have hmem : ':' ∈ (head ++ ":" ++ weight).toList := by
    rw [hlist]
    simp
  have hx : head ++ ":" ++ weight ≠ "x" := by
    intro h
    rw [h] at hmem
    revert hmem
    decide
  have hsemicolon : head ++ ":" ++ weight ≠ ";" := by
    intro h
    rw [h] at hmem
    revert hmem
    decide
  rw [ofToken, if_neg hx, if_neg hsemicolon, hlist, Text.splitLast_append hcolon]
  dsimp only
  rw [String.ofList_toList, hw]
  cases terminal? head.toList with
  | some opcode => rfl
  | none =>
    cases hop : Opcode.ofMnemonic? head with
    | some opcode => simp only [String.ofList_toList, hop]
    | none => simp only [String.ofList_toList, hop]

lemma ofToken_eq {w : Float} (hw : ReadsBack w) (head : String) :
    ofToken (head ++ ":" ++ Decimal.plain.write w) = match terminal? head.toList with
      | some opcode => readTerminal (head ++ ":" ++ Decimal.plain.write w) opcode head.toList.tail w
      | none => match Opcode.ofMnemonic? head with
        | some opcode => .ok (.plain opcode w)
        | none => .error (.unknownOperator head) :=
  ofToken_append (fun h => (Decimal.isInner_of_mem_write h).2 rfl) hw head

section Terminals

variable {n l : ℕ} {w : Float}

lemma notMem_digitsOf {c : Char} (hc : c.isDigit = false) : c ∉ digitsOf n := by
  intro h
  rw [Decimal.isDigit_of_mem_digitsOf h] at hc
  cases hc

/-- Digits that were written for a word stand for that word. -/
lemma readOperand_digitsOf (hn : n ≤ maxWord) (token : String) :
    readOperand token (digitsOf n) = .ok n := by
  rw [readOperand, ← Decimal.toList_toString, String.ofList_toList, Decimal.natural?_toString hn]

lemma readTerminal_digitsOf (hn : n ≤ maxWord) (token : String) :
    readTerminal token .input (digitsOf n) w = .ok (input n w) := by
  rw [readTerminal, Text.splitFirst_eq_none (notMem_digitsOf (by decide))]
  simp only [if_pos, readOperand_digitsOf hn]
  rfl

lemma readTerminal_lag (hn : n ≤ maxWord) (hl : l ≤ maxWord) (token : String) (opcode : Opcode) :
    readTerminal token opcode (digitsOf n ++ '[' :: (digitsOf l ++ [']'])) w
      = .ok (if opcode = .input then pastInput n l w else pastOutput n l w) := by
  rw [readTerminal, Text.splitFirst_append (notMem_digitsOf (by decide))]
  simp only [Text.dropLast?_append_singleton, readOperand_digitsOf hn, readOperand_digitsOf hl]
  rfl

/-- The letter of an estimate is followed by a digit. -/
lemma terminal?_pastOutput (rest : List Char) :
    terminal? ('o' :: (digitsOf n ++ rest)) = some .pastOutput := by
  have hne : digitsOf n ≠ [] := Nat.toDigits_ne_nil
  have hr : 'r' ∉ digitsOf n := notMem_digitsOf (by decide)
  generalize digitsOf n = digits at hne hr
  cases digits with
  | nil => exact absurd rfl hne
  | cons c digits =>
    have hc : c ≠ 'r' := by
      rintro rfl
      exact hr List.mem_cons_self
    exact if_neg hc

end Terminals

/-- The word of an operator announces no terminal, although `or` begins with the letter of one. -/
lemma terminal?_mnemonic {op : Opcode} {word : String} (h : op.mnemonic? = some word) :
    terminal? word.toList = none := by
  cases op <;> cases h <;> decide

lemma ofToken_operator {op : Opcode} {word : String} (h : op.mnemonic? = some word) {w : Float}
    (hw : ReadsBack w) : ofToken (word ++ ":" ++ Decimal.plain.write w) = .ok (plain op w) := by
  rw [ofToken_eq hw, terminal?_mnemonic h]
  dsimp only
  rw [Opcode.ofMnemonic?_eq_some_iff.mpr h]

lemma ofNat_zero : (Scalar.ofNat 0 : Float) = 0.0 := by decide +kernel

/-- **The token of an instruction is read back**, but for a weight that it does not show. -/
theorem ofToken_token {i : Instruction Float} (hi : i.IsWritable) (hwords : i.FitsWords)
    (hweight : i.WeightReadsBack) : ofToken i.token = .ok i.bare := by
  rcases i with ⟨op, v, l, w⟩
  have hterminal := hi.operand
  have hlag := hi.lag
  cases op with
  | noOp =>
    obtain rfl : v = 0 := hterminal rfl
    obtain rfl : l = 0 := hlag nofun nofun
    show Except.ok (plain .noOp (Scalar.ofNat 0)) = _
    rw [ofNat_zero]
    rfl
  | separator =>
    obtain rfl : v = 0 := hterminal rfl
    obtain rfl : l = 0 := hlag nofun nofun
    show Except.ok (plain .separator (Scalar.ofNat 0)) = _
    rw [ofNat_zero]
    rfl
  | processAll => cases hi.notAggregate
  | input =>
    obtain rfl : l = 0 := hlag nofun nofun
    have hhead : ("t" ++ toString v).toList = 't' :: digitsOf v := by
      rw [String.toList_append, Decimal.toList_toString]
      rfl
    show ofToken ("t" ++ toString v ++ ":" ++ _) = _
    rw [ofToken_eq (hweight rfl), hhead]
    exact readTerminal_digitsOf hwords.operand _
  | pastInput =>
    have hhead : ("t" ++ toString v ++ "[" ++ toString l ++ "]").toList
        = 't' :: (digitsOf v ++ '[' :: (digitsOf l ++ [']'])) := by
      simp [digitsOf]
    show ofToken ("t" ++ toString v ++ "[" ++ toString l ++ "]" ++ ":" ++ _) = _
    rw [ofToken_eq (hweight rfl), hhead]
    exact readTerminal_lag hwords.operand hwords.lag _ _
  | pastOutput =>
    have hhead : ("o" ++ toString v ++ "[" ++ toString l ++ "]").toList
        = 'o' :: (digitsOf v ++ '[' :: (digitsOf l ++ [']'])) := by
      simp [digitsOf]
    show ofToken ("o" ++ toString v ++ "[" ++ toString l ++ "]" ++ ":" ++ _) = _
    rw [ofToken_eq (hweight rfl), hhead, terminal?_pastOutput]
    exact readTerminal_lag hwords.operand hwords.lag _ _
  | _ =>
    -- an operator stands alone in its head
    obtain rfl : v = 0 := hterminal rfl
    obtain rfl : l = 0 := hlag nofun nofun
    exact ofToken_operator rfl (hweight rfl)

/-- A placeholder in the place of a text that is no token does not come up for a token. -/
lemma ofTokenOrNoOp_token {i : Instruction Float} (hi : i.IsWritable) (hwords : i.FitsWords)
    (hweight : i.WeightReadsBack) : ofTokenOrNoOp i.token = i.bare := by
  rw [ofTokenOrNoOp, ofToken_token hi hwords hweight]

/-! ### Tokens as words -/

lemma isInner_of_mem_toString {n : ℕ} {c : Char} (h : c ∈ (toString n).toList) :
    Text.IsInner c := by
  rw [Decimal.toList_toString] at h
  exact Text.isInner_of_isDigit (Decimal.isDigit_of_mem_digitsOf h)

/-- Heads hold letters, brackets and digits. -/
lemma isInner_of_mem_head {i : Instruction Float} {c : Char} (h : c ∈ i.head.toList) :
    Text.IsInner c := by
  have hletter {text : String} (htext : (text.toList.all fun c => decide (Text.IsInner c)) = true)
      (hc : c ∈ text.toList) : Text.IsInner c := Decimal.isInner_of_all htext hc
  rcases i with ⟨op, v, l, w⟩
  cases op with
  | input =>
    rw [head, String.toList_append, List.mem_append] at h
    rcases h with h | h
    · exact hletter (by decide +kernel) h
    · exact isInner_of_mem_toString h
  | pastInput | pastOutput =>
    simp only [head, String.toList_append, List.mem_append] at h
    rcases h with (((h | h) | h) | h) | h
    · exact hletter (by decide +kernel) h
    · exact isInner_of_mem_toString h
    · exact hletter (by decide +kernel) h
    · exact isInner_of_mem_toString h
    · exact hletter (by decide +kernel) h
  | _ =>
    simp only [head, Opcode.mnemonic?, Option.getD_some] at h
    exact hletter (by decide +kernel) h

lemma head_ne_nil (i : Instruction Float) : i.head.toList ≠ [] := by
  rcases i with ⟨op, v, l, w⟩
  cases op <;> simp [head, Opcode.mnemonic?]

/-- A token is a word. -/
lemma token_isWord (i : Instruction Float) :
    i.token.toList ≠ [] ∧ ∀ c ∈ i.token.toList, Text.isBlank c = false := by
  rw [token, tokenWith]
  split
  · simp only [String.toList_append, List.append_assoc]
    refine ⟨List.append_ne_nil_of_left_ne_nil i.head_ne_nil _, fun c hc => ?_⟩
    rcases List.mem_append.mp hc with hc | hc
    · exact (isInner_of_mem_head hc).1
    · rcases List.mem_append.mp hc with hc | hc
      · obtain rfl : c = ':' := List.mem_singleton.mp hc
        decide
      · exact (Decimal.isInner_of_mem_write hc).1
  · exact ⟨i.head_ne_nil, fun c hc => (isInner_of_mem_head hc).1⟩

/-! ### What is read -/

lemma le_maxWord_of_readOperand {token : String} {digits : List Char} {n : ℕ}
    (h : readOperand token digits = .ok n) : n ≤ maxWord := by
  rw [readOperand] at h
  split at h
  · rename_i m hm
    cases h
    exact Decimal.le_maxWord_of_natural? hm
  · cases h

lemma isWritable_plain (op : Opcode) (hop : op ≠ .processAll) (w : Float) :
    (plain op w).IsWritable :=
  ⟨decide_eq_false hop, fun _ => rfl, fun _ _ => rfl⟩

/-- Placeholders and separators weigh nothing. -/
lemma isShown_special (op : Opcode) (hop : op ≠ .processAll) :
    (plain op (Scalar.ofNat 0)).IsShown :=
  ⟨isWritable_plain op hop _, fun _ => ofNat_zero⟩

/-- The weight of an instruction that takes part in a rule is shown. -/
lemma IsWritable.isShown {i : Instruction Float} (h : i.IsWritable) (hi : i.isLive = true) :
    i.IsShown :=
  ⟨h, fun hnot => absurd hi (ne_true_of_eq_false hnot)⟩

lemma fitsWords_plain (op : Opcode) (w : Float) : (plain op w).FitsWords :=
  ⟨Nat.zero_le _, Nat.zero_le _⟩

section Terminals

variable (n l : ℕ) (w : Float)

lemma isWritable_input : (input n w).IsWritable := ⟨rfl, nofun, fun _ _ => rfl⟩

lemma isWritable_pastInput : (pastInput n l w).IsWritable :=
  ⟨rfl, nofun, fun h => absurd rfl h⟩

lemma isWritable_pastOutput : (pastOutput n l w).IsWritable :=
  ⟨rfl, nofun, fun _ h => absurd rfl h⟩

end Terminals

lemma exists_of_bind_eq_ok {ε β γ : Type} {x : Except ε β} {f : β → Except ε γ} {c : γ}
    (h : x >>= f = .ok c) : ∃ b, x = .ok b ∧ f b = .ok c := by
  cases x with
  | error e => cases h
  | ok b => exact ⟨b, rfl, h⟩

lemma isWritable_of_readTerminal {token : String} {opcode : Opcode} {operands : List Char}
    {w : Float} {i : Instruction Float} (h : readTerminal token opcode operands w = .ok i) :
    i.IsWritable ∧ i.FitsWords ∧ i.isLive = true := by
  rw [readTerminal] at h
  split at h
  · split at h
    · cases h
    · obtain ⟨n, hn, h⟩ := exists_of_bind_eq_ok h
      obtain ⟨l, hl, h⟩ := exists_of_bind_eq_ok h
      have hn := le_maxWord_of_readOperand hn
      have hl := le_maxWord_of_readOperand hl
      cases h
      split
      · exact ⟨isWritable_pastInput n l w, ⟨hn, hl⟩, rfl⟩
      · exact ⟨isWritable_pastOutput n l w, ⟨hn, hl⟩, rfl⟩
  · split at h
    · obtain ⟨n, hn, h⟩ := exists_of_bind_eq_ok h
      cases h
      exact ⟨isWritable_input n w, ⟨le_maxWord_of_readOperand hn, Nat.zero_le _⟩, rfl⟩
    · cases h

/-- **What a token stands for is shown by the token of it**, and the numbers are words. -/
theorem isShown_of_ofToken {token : String} {i : Instruction Float} (h : ofToken token = .ok i) :
    i.IsShown ∧ i.FitsWords := by
  rw [ofToken] at h
  split at h
  · cases h
    exact ⟨isShown_special .noOp nofun, fitsWords_plain _ _⟩
  split at h
  · cases h
    exact ⟨isShown_special .separator nofun, fitsWords_plain _ _⟩
  -- a head and a number, and the head is either a terminal or the word of an operator
  split at h
  · cases h
  split at h
  · cases h
  split at h
  · obtain ⟨hwritable, hwords, hlive⟩ := isWritable_of_readTerminal h
    exact ⟨hwritable.isShown hlive, hwords⟩
  split at h
  · rename_i op hop
    cases h
    rw [Opcode.ofMnemonic?_eq_some_iff] at hop
    have hkind : op ≠ .processAll ∧ op.isSpecial = false := by
      cases op <;> first | cases hop | exact ⟨nofun, rfl⟩
    exact ⟨(isWritable_plain op hkind.1 _).isShown (by simp [plain, isLive, hkind.2]),
      fitsWords_plain _ _⟩
  · cases h

/-- Every word stands for something that can be written, but the placeholder for a word that is no
token may have a weight. -/
lemma isWritable_ofTokenOrNoOp (word : String) :
    (ofTokenOrNoOp word).IsWritable ∧ (ofTokenOrNoOp word).FitsWords := by
  rw [ofTokenOrNoOp]
  split
  · rename_i i hi
    obtain ⟨hshown, hwords⟩ := isShown_of_ofToken hi
    exact ⟨hshown.toIsWritable, hwords⟩
  · exact ⟨isWritable_plain .noOp nofun _, fitsWords_plain _ _⟩

end Instruction

end FuzzyForest
