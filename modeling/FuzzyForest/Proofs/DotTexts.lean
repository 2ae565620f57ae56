/-
Drawings in the DOT language.

The text of a drawing is a list of statements, each of a node or of an edge.  A number ends at a
blank or at a semicolon, and a label, which holds no quotes, ends at a quote.  The text therefore
tells the statements that it was made of, and these tell the nodes, their labels and their edges.
-/
import FuzzyForest.Proofs.Tokens
import FuzzyForest.Rule.Graph

namespace FuzzyForest

open Decimal (digitsOf)
open Instruction (notMem_digitsOf)

/-- A text falls apart in one way where a character occurs first. -/
lemma Text.append_cons_inj {c : Char} {a a' b b' : List Char} (ha : c ∉ a) (ha' : c ∉ a')
    (h : a ++ c :: b = a' ++ c :: b') : a = a' ∧ b = b' := by
  have hcut := congrArg (splitFirst c) h
  rw [splitFirst_append ha, splitFirst_append ha', Option.some.injEq, Prod.mk.injEq] at hcut
  exact hcut

lemma Decimal.digitsOf_inj {m n : ℕ} (h : digitsOf m = digitsOf n) : m = n := by
  rw [← digitsValue_digitsOf m, h, digitsValue_digitsOf]

/-! ### Labels -/

lemma Decimal.quote_notMem_fixedText (places : ℕ) (x : Binary) : '"' ∉ fixedText places x := by
  intro h
  simp only [fixedText] at h
  generalize hdigits : digitsOf _ = digits at h
  have hpadded : '"' ∉ zeros (places + 1 - digits.length) ++ digits := by
    rw [List.mem_append, not_or, ← hdigits]
    exact ⟨fun hzero => absurd (List.eq_of_mem_replicate hzero) (by decide),
      notMem_digitsOf (by decide)⟩
  split at h
  · exact hpadded (List.mem_of_mem_take h)
  · rw [List.mem_append, List.mem_cons] at h
    rcases h with h | h | h
    · exact hpadded (List.mem_of_mem_take h)
    · exact absurd h (by decide)
    · exact hpadded (List.mem_of_mem_drop h)

lemma Decimal.quote_notMem_fixed (places : ℕ) (x : Float) : '"' ∉ (fixed places x).toList := by
  have hsign (negative : Bool) : '"' ∉ (if negative then "-" else "").toList := by
    cases negative <;> decide
  rw [fixed]
  split
  · decide
  · rw [String.toList_append, List.mem_append, not_or]
    exact ⟨hsign _, by decide⟩
  · rw [String.toList_append, List.mem_append, String.toList_ofList, not_or]
    exact ⟨hsign _, quote_notMem_fixedText places _⟩

lemma Instruction.quote_notMem_tokenFixed (places : ℕ) (i : Instruction Float) :
    '"' ∉ (i.tokenFixed places).toList := by
  have hdigits (n : ℕ) : '"' ∉ digitsOf n := notMem_digitsOf (by decide)
  have hhead : '"' ∉ i.head.toList := by
    rcases i with ⟨op, v, l, w⟩
    cases op with
    | input | pastInput | pastOutput =>
      simp only [head, String.toList_append, Decimal.toList_toString, List.mem_append, not_or]
      simp [hdigits]
    | _ =>
      simp only [head, Opcode.mnemonic?, Option.getD_some]
      decide
  rw [tokenFixed, tokenWith]
  split
  · rw [String.toList_append, String.toList_append, List.mem_append, List.mem_append, not_or,
      not_or]
    exact ⟨⟨hhead, by decide⟩, Decimal.quote_notMem_fixed places i.weight⟩
  · exact hhead

namespace Graph

/-! ### Statements -/

/-- A statement of a drawing. -/
inductive Statement
  | node (index : ℕ) (label : List Char)
  | edge (parent child : ℕ)
deriving DecidableEq

namespace Statement

/-- The text of a statement. -/
def text : Statement → List Char
  | node index label =>
    digitsOf index ++ ' ' :: ("[ label = \"".toList ++ (label ++ '"' :: " ]; ".toList))
  | edge parent child =>
    digitsOf parent ++ ' ' :: ("-> ".toList ++ (digitsOf child ++ ';' :: [' ']))

/-- A label holds no quotes. -/
def IsPlain : Statement → Prop
  | node _ label => '"' ∉ label
  | edge _ _ => True

/-- A statement ends where its text says. -/
lemma text_append_inj {s t : Statement} (hs : s.IsPlain) (ht : t.IsPlain) {rest rest' : List Char}
    (h : s.text ++ rest = t.text ++ rest') : s = t ∧ rest = rest' := by
  have hblank (n : ℕ) : ' ' ∉ digitsOf n := notMem_digitsOf (by decide)
  have hsemicolon (n : ℕ) : ';' ∉ digitsOf n := notMem_digitsOf (by decide)
  cases s with
  | node i label =>
    cases t with
    | node j label' =>
      simp only [text, List.append_assoc, List.cons_append] at h
      obtain ⟨hindex, h⟩ := Text.append_cons_inj (hblank i) (hblank j) h
      obtain ⟨hlabel, hrest⟩ := Text.append_cons_inj hs ht (List.append_cancel_left h)
      rw [Decimal.digitsOf_inj hindex, hlabel]
      exact ⟨rfl, List.append_cancel_left hrest⟩
    | edge j child =>
      simp only [text, List.append_assoc, List.cons_append] at h
      obtain ⟨-, h⟩ := Text.append_cons_inj (hblank i) (hblank j) h
      exact absurd (List.cons.inj h).1 (by decide)
  | edge i child =>
    cases t with
    | node j label' =>
      simp only [text, List.append_assoc, List.cons_append] at h
      obtain ⟨-, h⟩ := Text.append_cons_inj (hblank i) (hblank j) h
      exact absurd (List.cons.inj h).1 (by decide)
    | edge j child' =>
      simp only [text, List.append_assoc, List.cons_append, List.nil_append] at h
      obtain ⟨hparent, h⟩ := Text.append_cons_inj (hblank i) (hblank j) h
      obtain ⟨hchild, hrest⟩ := Text.append_cons_inj (hsemicolon child) (hsemicolon child')
        (List.append_cancel_left h)
      rw [Decimal.digitsOf_inj hparent, Decimal.digitsOf_inj hchild]
      exact ⟨rfl, (List.cons.inj hrest).2⟩

/-- A statement begins with a digit, and so not with the brace that ends a drawing. -/
lemma text_append_ne (s : Statement) (rest rest' : List Char) :
    s.text ++ rest ≠ '\x7d' :: rest' := by
  have hhead (n : ℕ) (more : List Char) : digitsOf n ++ more ≠ '\x7d' :: rest' := by
    have hne : digitsOf n ≠ [] := Nat.toDigits_ne_nil
    have hbrace : '\x7d' ∉ digitsOf n := notMem_digitsOf (by decide)
    generalize digitsOf n = digits at hne hbrace
    cases digits with
    | nil => exact absurd rfl hne
    | cons c digits =>
      intro h
      exact hbrace ((List.cons.inj h).1 ▸ List.mem_cons_self)
  cases s with
  | node | edge =>
    rw [text, List.append_assoc]
    exact hhead _ _

/-- **Statements are told by their text.** -/
theorem flatMap_text_inj {ss ts : List Statement} (hs : ∀ s ∈ ss, s.IsPlain)
    (ht : ∀ t ∈ ts, t.IsPlain)
    (h : ss.flatMap text ++ ['\x7d'] = ts.flatMap text ++ ['\x7d']) : ss = ts := by
  induction ss generalizing ts with
  | nil =>
    cases ts with
    | nil => rfl
    | cons t ts =>
      rw [List.flatMap_cons, List.append_assoc] at h
      exact absurd h.symm (text_append_ne t _ _)
  | cons s ss ih =>
    cases ts with
    | nil =>
      rw [List.flatMap_cons, List.append_assoc] at h
      exact absurd h (text_append_ne s _ _)
    | cons t ts =>
      obtain ⟨hs, hss⟩ := List.forall_mem_cons.mp hs
      obtain ⟨ht, hts⟩ := List.forall_mem_cons.mp ht
      rw [List.flatMap_cons, List.flatMap_cons, List.append_assoc, List.append_assoc] at h
      obtain ⟨hfirst, hrest⟩ := text_append_inj hs ht h
      rw [hfirst, ih hss hts hrest]

end Statement

/-! ### Drawings -/

/-- The statements of a node and its edges. -/
def nodeStatements (node : GraphNode Float) : List Statement :=
  .node node.index (node.label.tokenFixed 3).toList :: node.children.map (.edge node.index)

/-- The statements of a drawing. -/
def statements (g : Graph Float) : List Statement := g.flatMap nodeStatements

/-- A node is written with its edges. -/
lemma toList_node (node : GraphNode Float) :
    (toString node.index ++ " [ label = \"" ++ node.label.tokenFixed 3 ++ "\" ]; "
      ++ String.join (node.children.map fun child =>
        toString node.index ++ " -> " ++ toString child ++ "; ")).toList
      = (nodeStatements node).flatMap Statement.text := by
  have hedge (child : ℕ) : (toString node.index ++ " -> " ++ toString child ++ "; ").toList
      = (Statement.edge node.index child).text := by
    simp only [String.toList_append, Decimal.toList_toString, Statement.text, List.append_assoc]
    rfl
  rw [nodeStatements, List.flatMap_cons, List.flatMap_map, String.toList_append,
    String.toList_join, List.flatMap_map]
  simp only [hedge]
  congr 1
  simp only [String.toList_append, Decimal.toList_toString, Statement.text, List.append_assoc]
  rfl

/-- **A drawing is written statement by statement.** -/
theorem toList_dot (g : Graph Float) :
    g.dot.toList
      = "digraph query \x7b ".toList ++ (g.statements.flatMap Statement.text ++ ['\x7d']) := by
  unfold dot
  rw [String.toList_append, String.toList_append, String.toList_join, List.flatMap_map,
    List.flatMap_congr fun node _ => toList_node node, statements, List.flatMap_assoc,
    List.append_assoc]
  rfl

/-- The edges of the first node come before the statement of another node. -/
lemma map_edge_append_inj {i : ℕ} {cs cs' : List ℕ} {g h : Graph Float}
    (heq : cs.map (.edge i) ++ g.statements = cs'.map (.edge i) ++ h.statements) :
    cs = cs' ∧ g.statements = h.statements := by
  have hne (c : ℕ) (rest : List Statement) (g : Graph Float) :
      .edge i c :: rest ≠ g.statements := by
    cases g with
    | nil => exact List.cons_ne_nil _ _
    | cons node g => exact fun h => nomatch (List.cons.inj h).1
  induction cs generalizing cs' with
  | nil =>
    cases cs' with
    | nil => exact ⟨rfl, heq⟩
    | cons c cs' => exact absurd heq.symm (hne c _ g)
  | cons c cs ih =>
    cases cs' with
    | nil => exact absurd heq (hne c _ h)
    | cons c' cs' =>
      obtain ⟨hfirst, hrest⟩ := List.cons.inj heq
      obtain ⟨hcs, hstatements⟩ := ih hrest
      cases hfirst
      exact ⟨by rw [hcs], hstatements⟩

/-- What the text of a drawing shows of a node. -/
def shown (node : GraphNode Float) : ℕ × String × List ℕ :=
  (node.index, node.label.tokenFixed 3, node.children)

lemma statements_inj {g h : Graph Float} (heq : g.statements = h.statements) :
    g.map shown = h.map shown := by
  induction g generalizing h with
  | nil =>
    cases h with
    | nil => rfl
    | cons node h => cases heq
  | cons node g ih =>
    cases h with
    | nil => cases heq
    | cons node' h =>
      obtain ⟨hfirst, hrest⟩ := List.cons.inj heq
      obtain ⟨hindex, hlabel⟩ := Statement.node.inj hfirst
      rw [hindex] at hrest
      obtain ⟨hchildren, hothers⟩ := map_edge_append_inj hrest
      have hshown : shown node = shown node' := by
        rw [shown, hindex, String.toList_inj.mp hlabel, hchildren, shown]
      rw [List.map_cons, hshown, ih hothers, List.map_cons]

/-- **The text of a drawing tells its nodes, their labels and their children.** -/
theorem dot_inj {g h : Graph Float} (heq : g.dot = h.dot) : g.map shown = h.map shown := by
  have hplain (g : Graph Float) : ∀ s ∈ g.statements, s.IsPlain := by
    intro s hs
    obtain ⟨node, -, hs⟩ := List.mem_flatMap.mp hs
    rcases List.mem_cons.mp hs with rfl | hs
    · exact Instruction.quote_notMem_tokenFixed 3 node.label
    · obtain ⟨child, -, rfl⟩ := List.mem_map.mp hs
      trivial
  have hlists := congrArg String.toList heq
  rw [toList_dot, toList_dot] at hlists
  exact statements_inj (Statement.flatMap_text_inj (hplain g) (hplain h)
    (List.append_cancel_left hlists))

end Graph

end FuzzyForest
