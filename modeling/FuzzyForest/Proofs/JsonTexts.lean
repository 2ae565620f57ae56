/-
JSON texts that are made of parts.

A text of a value is read alike wherever it stands, as long as it ends there: a number would go on
with a further digit, but not with a comma or a closing bracket.  The items of a list and the
members of an object stand in such places, so that the whole is read as what its parts are read as.
`Json.Reads` says so of a text and a value, and the main results are

* `Json.reads_of_read`, `Json.reads_digitsOf`, `Json.reads_quoted`: numbers, words and strings;
* `Json.reads_arrayText`, `Json.reads_objectText`: lists and objects.
-/
import FuzzyForest.Proofs.Tokens
import FuzzyForest.Text.Json

namespace FuzzyForest

namespace Decimal

/-- Zero is the only number whose digits start with a zero. -/
lemma head?_digitsOf {n : ℕ} (h : (digitsOf n).head? = some '0') : digitsOf n = ['0'] := by
  have hzero : n = 0 := by
    induction n using Nat.strong_induction_on with
    | _ n ih =>
      rw [digitsOf, Nat.toDigits_eq_if (by decide)] at h
      split at h
      · interval_cases n <;> simp_all [Nat.digitChar]
      · rw [List.head?_append_of_ne_nil _ Nat.toDigits_ne_nil] at h
        have := ih (n / 10) (by omega) h
        omega
  rw [hzero]
  rfl

end Decimal

namespace Json

open Decimal (digitsOf digitsValue maxWord)

/-! ### Ends of values -/

/-- The text ends, or goes on behind a value of a list or an object. -/
def Ends (tail : List Char) : Prop := ∀ c ∈ tail.head?, c ∈ [',', ']', '\x7d']

lemma ends_nil : Ends [] := nofun

lemma ends_cons {c : Char} (h : c ∈ [',', ']', '\x7d']) (tail : List Char) : Ends (c :: tail) := by
  intro d hd
  rwa [← Option.mem_some_iff.mp hd]

section Ends

variable {tail : List Char}

lemma Ends.head {P : Char → Prop} (h : Ends tail) (hP : ∀ c ∈ [',', ']', '\x7d'], P c) :
    ∀ c ∈ tail.head?, P c :=
  fun c hc => hP c (h c hc)

/-- What is taken while a condition holds stops where a text goes on without it. -/
lemma takeWhile_append {p : Char → Bool} (h : ∀ c ∈ tail.head?, p c = false) (cs : List Char) :
    (cs ++ tail).takeWhile p = cs.takeWhile p := by
  have htail : tail.takeWhile p = [] := by
    cases tail with
    | nil => rfl
    | cons c tail => simp [h c rfl]
  rw [List.takeWhile_append, htail, List.append_nil]
  split
  · rename_i hlength
    exact ((List.takeWhile_prefix p).eq_of_length hlength).symm
  · rfl

lemma dropWhile_append {p : Char → Bool} (h : ∀ c ∈ tail.head?, p c = false) (cs : List Char) :
    (cs ++ tail).dropWhile p = cs.dropWhile p ++ tail := by
  have htail : tail.dropWhile p = tail := by
    cases tail with
    | nil => rfl
    | cons c tail => simp [h c rfl]
  rw [List.dropWhile_append, htail]
  split
  · rename_i hempty
    rw [List.isEmpty_iff.mp hempty, List.nil_append]
  · rfl

lemma Ends.skip_append (h : Ends tail) (cs : List Char) : skip (cs ++ tail) = skip cs ++ tail :=
  dropWhile_append (h.head (by simp [isSpace])) cs

lemma Ends.isDigit (h : Ends tail) : ∀ c ∈ tail.head?, c.isDigit = false :=
  h.head (by simp)

end Ends

/-! ### Numbers -/

section Numbers

variable {tail : List Char}

lemma places?_append (h : Ends tail) {cs ps rest : List Char} (hcs : places? cs = some (ps, rest)) :
    places? (cs ++ tail) = some (ps, rest ++ tail) := by
  cases cs with
  | nil =>
    cases hcs
    cases tail with
    | nil => rfl
    | cons c tail =>
      have hc : c ≠ '.' := h.head (P := (· ≠ '.')) (by simp) c rfl
      rw [List.nil_append, places?.eq_def]
      split
      · rename_i heq
        exact absurd (List.cons.inj heq).1 hc
      · rfl
  | cons c cs =>
    rw [List.cons_append]
    by_cases hc : c = '.'
    · subst hc
      simp only [places?] at hcs ⊢
      rw [takeWhile_append h.isDigit, dropWhile_append h.isDigit]
      split at hcs
      · cases hcs
      · rename_i hne
        cases hcs
        rw [if_neg hne]
    · have hplain : ∀ cs, places? (c :: cs) = some ([], c :: cs) := by
        intro cs
        rw [places?.eq_def]
        split
        · rename_i heq
          exact absurd (List.cons.inj heq).1 hc
        · rfl
      rw [hplain] at hcs ⊢
      cases hcs
      rfl

lemma powerDigits?_append (h : Ends tail) {negative : Bool} {cs rest : List Char} {p : Option Int}
    (hcs : powerDigits? negative cs = some (p, rest)) :
    powerDigits? negative (cs ++ tail) = some (p, rest ++ tail) := by
  rw [powerDigits?] at hcs ⊢
  rw [takeWhile_append h.isDigit, dropWhile_append h.isDigit]
  split at hcs
  · cases hcs
  · rename_i hne
    cases hcs
    rw [if_neg hne]

/-- An exponent may have a sign. -/
lemma power?_mark {c : Char} (hc : c = 'e' ∨ c = 'E') (d : Char) (ds : List Char) :
    power? (c :: d :: ds) = if d = '-' then powerDigits? true ds
      else if d = '+' then powerDigits? false ds else powerDigits? false (d :: ds) := by
  rw [power?.eq_def]
  simp only [hc, if_true]
  split
  · rename_i heq
    cases heq
    rfl
  · rename_i heq
    cases heq
    rfl
  · rename_i hminus hplus
    rw [if_neg fun h : d = '-' => hminus ds (h ▸ rfl), if_neg fun h : d = '+' => hplus ds (h ▸ rfl)]

lemma power?_of_not_mark {c : Char} (hc : ¬(c = 'e' ∨ c = 'E')) (cs : List Char) :
    power? (c :: cs) = some (none, c :: cs) := by
  rw [power?.eq_def]
  exact if_neg hc

lemma power?_append (h : Ends tail) {cs rest : List Char} {p : Option Int}
    (hcs : power? cs = some (p, rest)) : power? (cs ++ tail) = some (p, rest ++ tail) := by
  cases cs with
  | nil =>
    cases hcs
    cases tail with
    | nil => rfl
    | cons c tail =>
      exact power?_of_not_mark
        (h.head (P := fun c => ¬(c = 'e' ∨ c = 'E')) (by simp) c rfl) tail
  | cons c cs =>
    rw [List.cons_append]
    by_cases hc : c = 'e' ∨ c = 'E'
    · cases cs with
      | nil =>
        rw [power?.eq_def] at hcs
        simp [hc, powerDigits?] at hcs
      | cons d ds =>
        rw [List.cons_append, power?_mark hc]
        rw [power?_mark hc] at hcs
        split at hcs
        · rw [if_pos ‹_›]
          exact powerDigits?_append h hcs
        · rw [if_neg ‹_›]
          split at hcs
          · rw [if_pos ‹_›]
            exact powerDigits?_append h hcs
          · rw [if_neg ‹_›]
            exact powerDigits?_append h hcs
    · rw [power?_of_not_mark hc] at hcs ⊢
      cases hcs
      rfl

/-- A number ends where its text does. -/
lemma numberBody_append (h : Ends tail) {negative : Bool} {cs rest : List Char} {v : Json}
    (hcs : numberBody negative cs = some (v, rest)) :
    numberBody negative (cs ++ tail) = some (v, rest ++ tail) := by
  rw [numberBody] at hcs ⊢
  rw [takeWhile_append h.isDigit, dropWhile_append h.isDigit]
  dsimp only at hcs ⊢
  split at hcs
  · cases hcs
  · rename_i hwhole
    rw [if_neg hwhole]
    obtain ⟨⟨places, rest1⟩, hplaces, hcs⟩ := Option.bind_eq_some_iff.mp hcs
    obtain ⟨⟨power, rest2⟩, hpower, hcs⟩ := Option.bind_eq_some_iff.mp hcs
    rw [places?_append h hplaces]
    dsimp only [Option.bind_eq_bind, Option.bind_some] at hcs ⊢
    rw [power?_append h hpower]
    dsimp only [Option.bind_eq_bind, Option.bind_some] at hcs ⊢
    split at hcs
    · rename_i hinteger
      cases hcs
      rw [if_pos hinteger]
      rfl
    · rename_i hinteger
      cases hcs
      rw [if_neg hinteger]
      rfl

/-! ### Values -/

/-- A value that is a number. -/
def IsNumber : Json → Prop
  | integer _ | number _ => True
  | _ => False

/-- The text stands for the value wherever it ends, and what is left in front of its end is
blank. -/
def Reads (text : List Char) (v : Json) : Prop :=
  ∀ fuel, text.length ≤ fuel → ∀ tail, Ends tail →
    ∃ spaces, skip spaces = [] ∧ value fuel (text ++ tail) = some (v, spaces ++ tail)

/-- What is left in front of an end is passed over. -/
lemma Ends.skip_spaces (h : Ends tail) {spaces : List Char} (hspaces : skip spaces = []) :
    skip (spaces ++ tail) = tail := by
  rw [h.skip_append, hspaces, List.nil_append]

/-- A text that stands for a value anywhere does so on its own. -/
lemma Reads.read {text : String} {v : Json} (h : Reads text.toList v) : read text = some v := by
  obtain ⟨spaces, hspaces, hvalue⟩ := h (2 * text.toList.length + 2) (by omega) [] ends_nil
  rw [List.append_nil, List.append_nil] at hvalue
  rw [Json.read, hvalue]
  exact if_pos hspaces

lemma value_of_minus {fuel : ℕ} {cs rest : List Char} (h : skip cs = '-' :: rest) :
    value (fuel + 1) cs = numberBody true rest := by
  rw [value, h]
  rfl

lemma value_of_isDigit {fuel : ℕ} {cs rest : List Char} {c : Char} (h : skip cs = c :: rest)
    (hc : c.isDigit = true) : value (fuel + 1) cs = numberBody false (c :: rest) := by
  rw [value, h]
  split
  · rename_i heq
    cases heq
  iterate 4
    rename_i heq
    cases heq
    exact absurd hc (by decide)
  · rename_i heq
    cases heq
    exact if_pos hc

/-- No word is a number. -/
lemma not_isNumber_of_keyword? {cs rest : List Char} {v : Json} (h : keyword? cs = some (v, rest)) :
    ¬v.IsNumber := by
  obtain ⟨⟨word, v'⟩, hmem, hv⟩ := List.exists_of_findSome?_eq_some h
  dsimp only at hv
  split at hv
  · cases hv
    simp only [List.mem_cons, Prod.mk.injEq, List.not_mem_nil, or_false] at hmem
    rcases hmem with ⟨-, rfl⟩ | ⟨-, rfl⟩ | ⟨-, rfl⟩ <;> exact id
  · cases hv

/-- A value that is a number was read as one. -/
lemma value_cases {fuel : ℕ} {cs rest : List Char} {v : Json} (hv : v.IsNumber)
    (h : value (fuel + 1) cs = some (v, rest)) :
    (∃ body, skip cs = '-' :: body ∧ numberBody true body = some (v, rest)) ∨
      ∃ c body, skip cs = c :: body ∧ c.isDigit = true ∧
        numberBody false (c :: body) = some (v, rest) := by
  rw [value] at h
  split at h
  · cases h
  · obtain ⟨_, -, h⟩ := Option.bind_eq_some_iff.mp h
    cases h
    exact hv.elim
  -- lists and objects, closed at once or not
  iterate 2
    · split at h
      · cases h
        exact hv.elim
      · obtain ⟨_, -, h⟩ := Option.bind_eq_some_iff.mp h
        cases h
        exact hv.elim
  · rename_i body hcs
    exact .inl ⟨body, hcs, h⟩
  · rename_i c body _ _ _ _ hcs
    split at h
    · rename_i hc
      exact .inr ⟨c, body, hcs, hc, h⟩
    · exact absurd hv (not_isNumber_of_keyword? h)

/-- The text of a number stands for it wherever it ends. -/
theorem reads_of_read {text : String} {v : Json} (h : read text = some v) (hv : v.IsNumber) :
    Reads text.toList v := by
  rw [Json.read] at h
  intro fuel hfuel tail htail
  split at h
  · rename_i v' spaces hvalue
    rw [Option.ite_none_right_eq_some] at h
    obtain ⟨hspaces, hsame⟩ := h
    cases hsame
    refine ⟨spaces, hspaces, ?_⟩
    rcases value_cases hv hvalue with ⟨body, hcs, hbody⟩ | ⟨c, body, hcs, hc, hbody⟩
    all_goals
      have hskip := htail.skip_append text.toList
      rw [hcs, List.cons_append] at hskip
      obtain ⟨fuel, rfl⟩ : ∃ n, fuel = n + 1 := by
        cases fuel with
        | zero => rw [List.length_eq_zero_iff.mp (Nat.le_zero.mp hfuel)] at hcs; cases hcs
        | succ fuel => exact ⟨fuel, rfl⟩
    · rw [value_of_minus hskip, numberBody_append htail hbody]
    · rw [value_of_isDigit hskip hc, ← List.cons_append, numberBody_append htail hbody]
  · cases h

end Numbers

/-! ### Words -/

/-- Digits that spell a word all fit. -/
lemma ofWhole_eq {digits : List Char} (h : digitsValue digits ≤ maxWord) :
    Leading.ofWhole digits = ⟨digitsValue digits, 0, false⟩ := by
  induction digits using List.reverseRecOn with
  | nil => rfl
  | append_singleton digits c ih =>
    have hvalue : digitsValue (digits ++ [c])
        = 10 * digitsValue digits + (c.toNat - '0'.toNat) := by
      rw [digitsValue, List.foldl_append]
      rfl
    rw [hvalue] at h ⊢
    have hpush : Leading.push ⟨digitsValue digits, 0, false⟩ 0 c
        = ⟨10 * digitsValue digits + (c.toNat - '0'.toNat), 0, false⟩ := by
      rw [Leading.push, if_neg (by simpa using h)]
      rfl
    have hdigits := ih (by omega)
    rw [Leading.ofWhole] at hdigits ⊢
    rw [List.foldl_append, hdigits, List.foldl_cons, List.foldl_nil, hpush]
    rfl

lemma isSpace_of_isDigit {c : Char} (h : c.isDigit = true) : isSpace c = false := by
  refine decide_eq_false ?_
  rintro (rfl | rfl | rfl | rfl) <;> exact absurd h (by decide)

/-- A word is read as a whole number. -/
theorem reads_digitsOf {n : ℕ} (h : n ≤ maxWord) : Reads (digitsOf n) (.integer n) := by
  have hdigit : ∀ c ∈ digitsOf n, c.isDigit = true := fun c => Decimal.isDigit_of_mem_digitsOf
  have htake : (digitsOf n).takeWhile Char.isDigit = digitsOf n :=
    List.takeWhile_eq_self_iff.mpr hdigit
  have hdrop : (digitsOf n).dropWhile Char.isDigit = [] := List.dropWhile_eq_nil_iff.mpr hdigit
  have hbody : numberBody false (digitsOf n) = some (.integer n, []) := by
    have hvalue := Decimal.digitsValue_digitsOf n
    have hzero : ¬(digitsOf n = [] ∨ (digitsOf n).head? = some '0' ∧ digitsOf n ≠ ['0']) := by
      rintro (hnil | ⟨hhead, hne⟩)
      · exact Nat.toDigits_ne_nil hnil
      · exact hne (Decimal.head?_digitsOf hhead)
    rw [numberBody, htake, hdrop, if_neg hzero, ofWhole_eq (hvalue.trans_le h), hvalue]
    rfl
  intro fuel hfuel tail htail
  obtain ⟨c, digits, hcons⟩ := List.exists_cons_of_ne_nil (Nat.toDigits_ne_nil (b := 10) (n := n))
  have hcons : digitsOf n = c :: digits := hcons
  rw [hcons] at hfuel hdigit hbody ⊢
  obtain ⟨fuel, rfl⟩ := Nat.exists_eq_add_of_lt (Nat.lt_of_lt_of_le (Nat.succ_pos _) hfuel)
  have hc := hdigit c List.mem_cons_self
  have hskip : skip (c :: digits ++ tail) = c :: (digits ++ tail) := by
    rw [skip, List.cons_append, List.dropWhile_cons_of_neg (by simp [isSpace_of_isDigit hc])]
  refine ⟨[], rfl, ?_⟩
  rw [value_of_isDigit hskip hc, ← List.cons_append, numberBody_append htail hbody]

/-! ### Strings -/

/-- The string holds no character that is written by an escape. -/
def IsPlain (s : String) : Prop := ∀ c ∈ s.toList, c ≠ '"' ∧ c ≠ '\\' ∧ 32 ≤ c.toNat

/-- A string between its quotes. -/
def quoted (s : String) : List Char := '"' :: (s.toList ++ ['"'])

lemma stringBody_append {cs : List Char} (h : ∀ c ∈ cs, c ≠ '"' ∧ c ≠ '\\' ∧ 32 ≤ c.toNat)
    (rest : List Char) {fuel : ℕ} (hfuel : cs.length < fuel) :
    stringBody fuel (cs ++ '"' :: rest) = some (cs.map some, rest) := by
  induction cs generalizing fuel with
  | nil =>
    obtain ⟨fuel, rfl⟩ := Nat.exists_eq_add_one.mpr hfuel
    rw [List.nil_append, stringBody, if_pos rfl]
    rfl
  | cons c cs ih =>
    obtain ⟨⟨hquote, hescape, hcontrol⟩, hcs⟩ := List.forall_mem_cons.mp h
    obtain ⟨fuel, rfl⟩ := Nat.exists_eq_add_one.mpr (Nat.zero_lt_of_lt hfuel)
    rw [List.length_cons, Nat.succ_lt_succ_iff] at hfuel
    rw [List.cons_append, stringBody, if_neg hquote, if_neg hescape, if_neg (by omega),
      ih hcs hfuel]
    rfl

/-- A plain string ends at its second quote. -/
lemma string?_append {s : String} (h : IsPlain s) (rest : List Char) :
    string? (s.toList ++ '"' :: rest) = some (some s, rest) := by
  have hchars : (s.toList.map some).mapM id = some s.toList := by
    rw [List.mapM_map]
    exact List.mapM_pure.trans (congrArg some (List.map_id _))
  rw [string?, stringBody_append h rest (by simp), Option.map_some]
  dsimp only
  rw [hchars, Option.map_some, String.ofList_toList]

lemma skip_cons {c : Char} (h : isSpace c = false) (cs : List Char) : skip (c :: cs) = c :: cs :=
  List.dropWhile_cons_of_neg (by simp [h])

lemma value_of_quote {fuel : ℕ} {cs rest : List Char} (h : skip cs = '"' :: rest) :
    value (fuel + 1) cs = (string? rest).map fun (s, rest) => (.string s, rest) := by
  rw [value, h, Option.map_eq_bind]
  rfl

lemma reads_quoted {s : String} (h : IsPlain s) : Reads (quoted s) (.string s) := by
  intro fuel hfuel tail htail
  obtain ⟨fuel, rfl⟩ := Nat.exists_eq_add_one.mpr (Nat.zero_lt_of_lt hfuel)
  have htext : quoted s ++ tail = '"' :: (s.toList ++ '"' :: tail) := by simp [quoted]
  refine ⟨[], rfl, ?_⟩
  rw [htext, value_of_quote (skip_cons (by decide) _), string?_append h]
  rfl

/-! ### Lists -/

/-- The text of a list. -/
def arrayText (texts : List (List Char)) : List Char := '[' :: ([','].intercalate texts ++ [']'])

section Lists

variable {fuel : ℕ} {cs rest rest' : List Char} {v : Json}

lemma items_of_comma (hvalue : value fuel cs = some (v, rest)) (hskip : skip rest = ',' :: rest') :
    items (fuel + 1) cs = (items fuel rest').map fun (more, rest) => (v :: more, rest) := by
  rw [items, hvalue, Option.map_eq_bind]
  dsimp only [Option.bind_eq_bind, Option.bind_some]
  rw [hskip]
  rfl

lemma items_of_bracket (hvalue : value fuel cs = some (v, rest))
    (hskip : skip rest = ']' :: rest') : items (fuel + 1) cs = some ([v], rest') := by
  rw [items, hvalue]
  dsimp only [Option.bind_eq_bind, Option.bind_some]
  rw [hskip]
  rfl

/-- No item starts with a closing bracket. -/
lemma items_of_closed (h : skip cs = ']' :: rest) : items fuel cs = none := by
  rcases fuel with _ | _ | fuel
  · rw [items]
  · rw [items, value]
    rfl
  · rw [items, value, h]
    rfl

/-- A list has items unless it is closed at once. -/
lemma value_of_array (h : skip cs = '[' :: rest) (hne : ∀ rest', skip rest ≠ ']' :: rest') :
    value (fuel + 1) cs = (items fuel rest).map fun (vs, rest) => (array vs, rest) := by
  rw [value, h, Option.map_eq_bind]
  split
  case h_3 heq =>
    cases heq
    split
    · rename_i rest' hclosed
      exact absurd hclosed (hne rest')
    · rfl
  -- no other leading character is a bracket
  case h_6 hopen _ _ heq =>
    cases heq
    exact (hopen rfl).elim
  all_goals
    rename_i heq
    cases heq

end Lists

/-- Every text that is read as an item ends where the next one begins. -/
lemma items_intercalate {text : List Char} {v : Json} {texts : List (List Char)} {vs : List Json}
    (h : Reads text v) (hs : List.Forall₂ Reads texts vs) {fuel : ℕ}
    (hfuel : ([','].intercalate (text :: texts)).length < fuel) (tail : List Char) :
    items fuel ([','].intercalate (text :: texts) ++ ']' :: tail) = some (v :: vs, tail) := by
  obtain ⟨fuel, rfl⟩ := Nat.exists_eq_add_one.mpr (Nat.zero_lt_of_lt hfuel)
  induction hs generalizing text v fuel with
  | nil =>
    rw [List.intercalate_singleton] at hfuel ⊢
    have hend : Ends (']' :: tail) := ends_cons (by simp) tail
    obtain ⟨spaces, hspaces, hvalue⟩ := h fuel (by omega) _ hend
    exact items_of_bracket hvalue (hend.skip_spaces hspaces)
  | @cons next w texts vs hnext hs ih =>
    rw [List.intercalate_cons_cons] at hfuel ⊢
    simp only [List.length_append, List.length_singleton] at hfuel
    obtain ⟨fuel, rfl⟩ := Nat.exists_eq_add_one.mpr (show 0 < fuel by omega)
    rw [List.append_assoc, List.append_assoc, List.singleton_append]
    have hend : Ends (',' :: ([','].intercalate (next :: texts) ++ ']' :: tail)) :=
      ends_cons (by simp) _
    obtain ⟨spaces, hspaces, hvalue⟩ := h (fuel + 1) (by omega) _ hend
    rw [items_of_comma hvalue (hend.skip_spaces hspaces), ih hnext fuel (by omega)]
    rfl

/-- **A list is read item by item.** -/
theorem reads_arrayText {texts : List (List Char)} {vs : List Json}
    (h : List.Forall₂ Reads texts vs) : Reads (arrayText texts) (.array vs) := by
  intro fuel hfuel tail htail
  obtain ⟨fuel, rfl⟩ := Nat.exists_eq_add_one.mpr (Nat.zero_lt_of_lt hfuel)
  have htext : arrayText texts ++ tail = '[' :: ([','].intercalate texts ++ ']' :: tail) := by
    simp [arrayText]
  rw [arrayText, List.length_cons, List.length_append, List.length_singleton] at hfuel
  have hskip := skip_cons (show isSpace '[' = false by decide)
    ([','].intercalate texts ++ ']' :: tail)
  refine ⟨[], rfl, ?_⟩
  rw [htext]
  cases h with
  | nil =>
    rw [value, hskip]
    rfl
  | @cons text v texts vs hv hvs =>
    have hitems := items_intercalate hv hvs (show _ < fuel by omega) tail
    rw [value_of_array hskip fun rest' hclosed => ?_, hitems]
    · rfl
    · rw [items_of_closed hclosed] at hitems
      cases hitems

/-! ### Objects -/

/-- The text of a member of an object. -/
def memberText (member : String × List Char) : List Char := quoted member.1 ++ ':' :: member.2

/-- The text of an object. -/
def objectText (members : List (String × List Char)) : List Char :=
  '\x7b' :: ([','].intercalate (members.map memberText) ++ ['\x7d'])

/-- The text of a member stands for it. -/
structure ReadsMember (text : String × List Char) (member : Option String × Json) : Prop where
  isPlain : IsPlain text.1
  name : member.1 = some text.1
  value : Reads text.2 member.2

section Objects

variable {fuel : ℕ} {name : String} {text tail rest rest' : List Char} {v : Json}

lemma memberText_append : memberText (name, text) ++ tail
    = '"' :: (name.toList ++ '"' :: ':' :: (text ++ tail)) := by
  simp [memberText, quoted]

/-- A member is its name, a colon and its value, and what follows it is another member or the end
of the object. -/
lemma members_memberText (hname : IsPlain name)
    (hvalue : value fuel (text ++ tail) = some (v, rest)) :
    members (fuel + 1) (memberText (name, text) ++ tail) = match skip rest with
      | ',' :: rest => do
        let (more, rest) ← members fuel rest
        return ((some name, v) :: more, rest)
      | '\x7d' :: rest => some ([(some name, v)], rest)
      | _ => none := by
  rw [memberText_append, members, skip_cons (by decide)]
  show (string? _).bind _ = _
  rw [string?_append hname, Option.bind_some]
  dsimp only
  rw [skip_cons (by decide)]
  show (value fuel _).bind _ = _
  rw [hvalue, Option.bind_some]
  rfl

/-- An object has members unless it is closed at once. -/
lemma value_of_object {cs : List Char} (h : skip cs = '\x7b' :: '"' :: rest) :
    value (fuel + 1) cs
      = (members fuel ('"' :: rest)).map fun (ms, rest) => (object ms, rest) := by
  rw [value, h, Option.map_eq_bind]
  split
  case h_4 heq =>
    cases heq
    rw [skip_cons (by decide)]
    rfl
  -- no other leading character is a brace
  case h_6 hopen _ heq =>
    cases heq
    exact (hopen rfl).elim
  all_goals
    rename_i heq
    cases heq

end Objects

/-- Every text that is read as a member ends where the next one begins. -/
lemma members_intercalate {text : String × List Char} {member : Option String × Json}
    {texts : List (String × List Char)} {ms : List (Option String × Json)}
    (h : ReadsMember text member) (hs : List.Forall₂ ReadsMember texts ms) {fuel : ℕ}
    (hfuel : ([','].intercalate ((text :: texts).map memberText)).length < fuel)
    (tail : List Char) :
    members fuel ([','].intercalate ((text :: texts).map memberText) ++ '\x7d' :: tail)
      = some (member :: ms, tail) := by
  obtain ⟨fuel, rfl⟩ := Nat.exists_eq_add_one.mpr (Nat.zero_lt_of_lt hfuel)
  induction hs generalizing text member fuel with
  | nil =>
    obtain ⟨name, text⟩ := text
    obtain ⟨_, v⟩ := member
    obtain ⟨hname, rfl, hvalue⟩ := h
    dsimp only at hname hvalue
    rw [List.map_singleton, List.intercalate_singleton] at hfuel ⊢
    have hlength : text.length ≤ fuel := by
      simp only [memberText, List.length_append, List.length_cons] at hfuel
      omega
    have hend : Ends ('\x7d' :: tail) := ends_cons (by simp) tail
    obtain ⟨spaces, hspaces, hvalue⟩ := hvalue fuel hlength _ hend
    rw [members_memberText hname hvalue, hend.skip_spaces hspaces]
    rfl
  | @cons next w texts ms hnext hs ih =>
    obtain ⟨name, text⟩ := text
    obtain ⟨_, v⟩ := member
    obtain ⟨hname, rfl, hvalue⟩ := h
    dsimp only at hname hvalue
    rw [List.map_cons, List.map_cons, List.intercalate_cons_cons, ← List.map_cons] at hfuel ⊢
    simp only [List.length_append, List.length_singleton] at hfuel
    have hlength : text.length + 1 ≤ (memberText (name, text)).length := by
      simp only [memberText, List.length_append, List.length_cons]
      omega
    obtain ⟨fuel, rfl⟩ := Nat.exists_eq_add_one.mpr (show 0 < fuel by omega)
    rw [List.append_assoc, List.append_assoc, List.singleton_append]
    have hend : Ends (',' :: ([','].intercalate ((next :: texts).map memberText)
        ++ '\x7d' :: tail)) := ends_cons (by simp) _
    obtain ⟨spaces, hspaces, hvalue⟩ := hvalue (fuel + 1) (by omega) _ hend
    rw [members_memberText hname hvalue, hend.skip_spaces hspaces]
    show (members (fuel + 1) _).bind _ = _
    rw [ih hnext fuel (by omega)]
    rfl

/-- **An object is read member by member.** -/
theorem reads_objectText {texts : List (String × List Char)} {ms : List (Option String × Json)}
    (h : List.Forall₂ ReadsMember texts ms) : Reads (objectText texts) (.object ms) := by
  intro fuel hfuel tail htail
  obtain ⟨fuel, rfl⟩ := Nat.exists_eq_add_one.mpr (Nat.zero_lt_of_lt hfuel)
  have htext : objectText texts ++ tail
      = '\x7b' :: ([','].intercalate (texts.map memberText) ++ '\x7d' :: tail) := by
    simp [objectText]
  rw [objectText, List.length_cons, List.length_append, List.length_singleton] at hfuel
  have hskip := skip_cons (show isSpace '\x7b' = false by decide)
    ([','].intercalate (texts.map memberText) ++ '\x7d' :: tail)
  refine ⟨[], rfl, ?_⟩
  rw [htext]
  cases h with
  | nil =>
    rw [value, hskip]
    rfl
  | @cons text member texts ms hmember hms =>
    have hmembers := members_intercalate hmember hms (show _ < fuel by omega) tail
    -- the first member begins with the quote of its name
    obtain ⟨rest, hrest⟩ : ∃ rest, [','].intercalate ((text :: texts).map memberText)
        ++ '\x7d' :: tail = '"' :: rest := by
      cases texts <;> exact ⟨_, rfl⟩
    rw [hrest] at hskip hmembers ⊢
    rw [value_of_object hskip, hmembers]
    rfl

end Json

end FuzzyForest
