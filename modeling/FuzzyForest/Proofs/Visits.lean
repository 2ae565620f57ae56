/-
Visits of a mutation pass.

A pass can be made in one buffer.  A cursor goes through it from left to right, and what is put into
the buffer or cut out of it moves all that is still to be visited.  Here every instruction of the
buffer is kept in a cell, together with the position at which it stood before the pass; what the
pass has put in stood nowhere.  The main results are

* `Scans.mutatePass` and `Stalls.mutatePass`: the loop in the buffer draws the same words as
  `mutatePass` and comes to the same code, and it always comes to an end (`scans_or_stalls`);
* `exists_after`: a visit leaves nothing to be visited but the end of what stood behind it;
* `mutated_visits_once`: so every position is visited at most once, and no instruction that was put
  in is ever visited.
-/
import FuzzyForest.Proofs.MutationPass

namespace FuzzyForest

open Act (Returns)

/-- What is inserted at the end of the front stands between front and back. -/
lemma insertIdx_append {α : Type} (front back : List α) (x : α) :
    (front ++ back).insertIdx front.length x = front ++ x :: back := by
  induction front with
  | nil => rfl
  | cons y front ih =>
    rw [List.cons_append, List.length_cons, List.insertIdx_succ_cons, ih, List.cons_append]

namespace Forest

variable {s : ModelSettings} {shape : Shape} {p : Float}

/-! ### Moves -/

/-- What is drawn for an instruction that is visited. -/
inductive Move
  /-- The instruction stays as it is. -/
  | keep
  /-- The instruction with a change in place. -/
  | inPlace (j : Instruction Float)
  /-- A complement to be put behind the instruction. -/
  | insertion (unary : Instruction Float)
  /-- An instruction of the same arity, or a placeholder. -/
  | point (j : Instruction Float)
  /-- A tree for the place of the subtree. -/
  | subtree (tree : Code Float)

namespace Move

/-- The kind of a move. -/
def change : Move → Change
  | keep => .keep
  | inPlace _ => .inPlace
  | insertion _ => .insertion
  | point _ => .point
  | subtree _ => .subtree

/-- Where a move at an instruction leads to. -/
def place (before : Code Float) (i : Instruction Float) (rest : Code Float) : Move → Place
  | keep => (i :: before, rest)
  | inPlace j | point j => (j :: before, rest)
  | insertion unary =>
    (unary :: i :: before, if rest.head?.any Instruction.isNoOp then rest.tail else rest)
  | subtree tree => (tree.reverse ++ before.drop (Code.reachOf i before), rest)

/-- A tree that is put in is not empty. -/
def IsProper : Move → Prop
  | subtree tree => tree ≠ []
  | _ => True

end Move

/-- The move for an instruction, of which `before` is the code before it, nearest first. -/
def move (s : ModelSettings) (shape : Shape) (p : Float) (before : Code Float)
    (i : Instruction Float) (rest : Code Float) : Draw Move :=
  if !i.isLive then return .keep
  else do
    if p ≤ (← Draw.unit) then return .keep
    else
      let roll ← Draw.unit
      if roll < inPlaceBelow then return .inPlace (← Draw.mutated s shape i)
      else if roll < insertionBelow ∧ s.allowNot then return .insertion (← Draw.ofArity s shape 1)
      else if (← Draw.unit) < pointChange then return .point (← changed s shape before i rest)
      else return .subtree (← Draw.tree s shape)

section

variable (before : Code Float) (i : Instruction Float) (rest : Code Float)

/-- A turn of a pass is a move. -/
lemma turn_eq_move : turn s shape p before i rest
    = move s shape p before i rest >>= fun m => pure (m.change, m.place before i rest) := by
  rw [turn, move]
  split
  · rfl
  · rw [Act.bind_assoc]
    congr 1
    funext x
    split
    · rfl
    · rw [Act.bind_assoc]
      congr 1
      funext roll
      split
      · rw [Act.bind_assoc]
        rfl
      · split
        · rw [Act.bind_assoc]
          congr 1
          funext unary
          cases rest with
          | nil => rfl
          | cons next rest =>
            cases hnext : next.isNoOp <;>
              simp only [hnext, Move.place, List.head?_cons, Option.any_some, List.tail_cons] <;> rfl
        · rw [Act.bind_assoc]
          congr 1
          funext y
          split <;> rw [Act.bind_assoc] <;> rfl

lemma returns_move : Returns (move s shape p before i rest) Move.IsProper := by
  refine .ite (fun _ => .pure trivial) fun hi => ?_
  have hi : i.isLive = true := by simpa using hi
  refine Draw.returns_unit.bind fun x _ => .ite (fun _ => .pure trivial) fun _ => ?_
  refine Draw.returns_unit.bind fun roll _ => .ite (fun _ => ?_) fun _ => .ite (fun _ => ?_)
    fun _ => Draw.returns_unit.bind fun y _ => .ite (fun _ => ?_) fun _ => ?_
  · exact (Draw.aggregates_mutated s shape i).bind fun j _ => .pure trivial
  · exact (Draw.returns_ofArity s shape (by decide)).bind fun unary _ => .pure trivial
  · exact (returns_changed hi).bind fun j _ => .pure trivial
  · exact (Draw.returns_tree s shape).bind fun tree htree =>
      .pure (List.ne_nil_of_length_pos (htree.length_pos Nat.one_pos))

/-- With a probability of zero or less every instruction stays as it is. -/
lemma move_of_le_zero (hp : p ≤ 0.0) (source : Source) :
    ∃ t, move s shape p before i rest source = (.ok .keep, t) := by
  rw [move]
  split
  · exact ⟨source, rfl⟩
  · refine ⟨source.advance, ?_⟩
    rw [Act.bind_apply]
    show (if p ≤ Draw.unitOf (source.words source.position) then (pure .keep : Draw Move) else _)
      source.advance = _
    rw [if_pos (Binary64.le_trans hp (Draw.zero_le_unitOf _))]
    rfl

end

/-- With a probability of zero or less a pass changes nothing. -/
lemma mutatePass_of_le_zero (hp : p ≤ 0.0) (before rest : Code Float) (source : Source) :
    ∃ t, mutatePass s shape p before rest source = (.ok (before.reverse ++ rest), t) := by
  induction rest generalizing before source with
  | nil => exact ⟨source, by rw [mutatePass, List.append_nil]; rfl⟩
  | cons i rest ih =>
    obtain ⟨t, ht⟩ : ∃ t, move s shape p before i rest source = (.ok .keep, t) :=
      move_of_le_zero before i rest hp source
    obtain ⟨u, hu⟩ := ih (i :: before) t
    refine ⟨u, ?_⟩
    rw [mutatePass_cons, turn_eq_move, Act.bind_assoc, Act.bind_apply, ht]
    rw [List.reverse_cons, List.append_assoc, List.singleton_append] at hu
    exact hu

/-! ### Cells -/

/-- An instruction of a buffer, with the position at which it stood before the pass.  What the pass
has put in stood nowhere. -/
structure Cell where
  instruction : Instruction Float
  origin? : Option ℕ

/-- The cell of an instruction that is put in. -/
def Cell.added (i : Instruction Float) : Cell := ⟨i, none⟩

/-- The instructions of a buffer. -/
abbrev instructions (cells : List Cell) : Code Float := cells.map Cell.instruction

/-- The buffer before the pass. -/
def cells (code : Code Float) : List Cell := code.mapIdx fun n i => ⟨i, some n⟩

lemma instructions_cells (code : Code Float) : instructions (cells code) = code := by
  refine List.ext_getElem? fun n => ?_
  rw [instructions, List.getElem?_map, cells, List.getElem?_mapIdx, Option.map_map]
  exact Option.map_id'

lemma getElem?_cells (code : Code Float) (n : ℕ) :
    (cells code)[n]? = code[n]?.map fun i => ⟨i, some n⟩ := List.getElem?_mapIdx

/-- A buffer and a position in it. -/
structure Cursor where
  cells : List Cell
  position : ℕ

namespace Cursor

/-- The cursor at the start of a buffer. -/
def start (code : Code Float) : Cursor := ⟨Forest.cells code, 0⟩

def code (c : Cursor) : Code Float := instructions c.cells

/-- What is still to be visited. -/
def ahead (c : Cursor) : List Cell := c.cells.drop c.position

/-- The code before the cursor, nearest first. -/
def before (c : Cursor) : Code Float := (c.code.take c.position).reverse

/-- The code behind the instruction at the cursor. -/
def behind (c : Cursor) : Code Float := c.code.drop (c.position + 1)

/-- The cursor one position further. -/
def next (c : Cursor) : Cursor := { c with position := c.position + 1 }

/-- A move is made in the buffer, at a cell.  The cursor is left at the last position that is
done. -/
def make (c : Cursor) (cell : Cell) : Move → Cursor
  | .keep => c
  | .inPlace j | .point j =>
    { c with cells := c.cells.set c.position { cell with instruction := j } }
  | .insertion unary =>
    let spare := c.cells[c.position + 1]?.any fun next => next.instruction.isNoOp
    ⟨if spare then c.cells.set (c.position + 1) (.added unary)
      else c.cells.insertIdx (c.position + 1) (.added unary), c.position + 1⟩
  | .subtree tree =>
    let left := Code.leftOf c.code c.position
    ⟨c.cells.take left ++ tree.map .added ++ c.cells.drop (c.position + 1), left + tree.length - 1⟩

/-- The cursor at the next head of the loop. -/
def after (c : Cursor) (cell : Cell) (m : Move) : Cursor := (c.make cell m).next

variable (done rest : List Cell) (cell : Cell)

lemma ahead_mk : ahead ⟨done ++ rest, done.length⟩ = rest := List.drop_left

lemma before_mk : before ⟨done ++ rest, done.length⟩ = (instructions done).reverse := by
  rw [before, code, instructions, List.map_append, List.take_left' (List.length_map _)]

lemma behind_mk : behind ⟨done ++ cell :: rest, done.length⟩ = instructions rest := by
  rw [behind, code, List.append_cons, instructions, List.map_append, List.drop_left']
  simp

/-- The cell at the cursor stands between what is done and what stands behind it. -/
lemma exists_split {c : Cursor} {cell : Cell} (h : c.cells[c.position]? = some cell) :
    ∃ done rest, c = ⟨done ++ cell :: rest, done.length⟩ := by
  obtain ⟨hlt, rfl⟩ := List.getElem?_eq_some_iff.mp h
  refine ⟨c.cells.take c.position, c.cells.drop (c.position + 1), ?_⟩
  rw [← List.drop_eq_getElem_cons hlt, List.take_append_drop, List.length_take,
    Nat.min_eq_left (Nat.le_of_lt hlt)]

/-- A complement is put behind the cell, or takes the place of a placeholder there. -/
lemma make_insertion (unary : Instruction Float) :
    make ⟨done ++ cell :: rest, done.length⟩ cell (.insertion unary)
      = ⟨done ++ cell :: .added unary ::
          if rest.head?.any fun next => next.instruction.isNoOp then rest.tail else rest,
        done.length + 1⟩ := by
  have hnext : (done ++ cell :: rest)[done.length + 1]? = rest.head? := by
    rw [List.getElem?_append_right (Nat.le_add_right _ _), Nat.add_sub_cancel_left,
      List.getElem?_cons_succ, List.head?_eq_getElem?]
  have hinsert : (done ++ cell :: rest).insertIdx (done.length + 1) (.added unary)
      = done ++ cell :: .added unary :: rest := by
    have h := insertIdx_append (done ++ [cell]) rest (.added unary)
    simpa using h
  rw [make, hnext]
  cases rest with
  | nil => simp [hinsert]
  | cons next rest => cases hspare : next.instruction.isNoOp <;> simp [hspare, hinsert]

/-- The new tree stands where the subtree of the cell has started. -/
lemma make_subtree (tree : Code Float) :
    make ⟨done ++ cell :: rest, done.length⟩ cell (.subtree tree)
      = let kept := done.length - Code.reachOf cell.instruction (instructions done).reverse
        ⟨done.take kept ++ tree.map .added ++ rest, kept + tree.length - 1⟩ := by
  have hleft : Code.leftOf (code ⟨done ++ cell :: rest, done.length⟩) done.length
      = done.length - Code.reachOf cell.instruction (instructions done).reverse := by
    have hnode : (code ⟨done ++ cell :: rest, done.length⟩)[done.length]?
        = some cell.instruction := by simp [code]
    rw [Code.leftOf, hnode]
    dsimp only
    congr 2
    exact before_mk done (cell :: rest)
  have hback : (done ++ cell :: rest).drop (done.length + 1) = rest := by simp
  simp only [make, hleft, hback, List.take_append_of_le_length (Nat.sub_le _ _)]

/-- **A visit leaves nothing ahead but the end of what stood behind the cell**, and the move comes to
what it does to the code. -/
theorem exists_after {m : Move} (hm : m.IsProper) : ∃ done' rest',
    after ⟨done ++ cell :: rest, done.length⟩ cell m = ⟨done' ++ rest', done'.length⟩ ∧
      rest' <:+ rest ∧ ((instructions done').reverse, instructions rest')
        = m.place (instructions done).reverse cell.instruction (instructions rest) := by
  cases m with
  | keep =>
    exact ⟨done ++ [cell], rest, by simp [after, make, next], List.suffix_refl rest,
      by simp [Move.place]⟩
  | inPlace j | point j =>
    exact ⟨done ++ [{ cell with instruction := j }], rest, by simp [after, make, next],
      List.suffix_refl rest, by simp [Move.place]⟩
  | insertion unary =>
    refine ⟨done ++ [cell, .added unary],
      if rest.head?.any fun next => next.instruction.isNoOp then rest.tail else rest, ?_, ?_, ?_⟩
    · rw [after, make_insertion, next]
      simp
    · split
      · exact List.tail_suffix rest
      · exact List.suffix_refl rest
    · simp only [Move.place, Cell.added, List.head?_map, Option.any_map,
        apply_ite instructions, List.map_append, List.map_tail]
      simp
  | subtree tree =>
    have hpos : 0 < tree.length := List.length_pos_iff.mpr hm
    have hkept := Nat.sub_le done.length
      (Code.reachOf cell.instruction (instructions done).reverse)
    refine ⟨done.take (done.length - Code.reachOf cell.instruction (instructions done).reverse)
      ++ tree.map .added, rest, ?_, List.suffix_refl rest, ?_⟩
    · rw [after, make_subtree, next]
      simp only [List.length_append, List.length_take, List.length_map, Nat.min_eq_left hkept,
        Cursor.mk.injEq, true_and]
      omega
    · have htree : instructions (tree.map .added) = tree := by
        simp [Cell.added, Function.comp_def]
      simp only [Move.place, List.map_append, htree, List.reverse_append, List.drop_reverse,
        List.length_map, List.map_take]

end Cursor

/-! ### The loop -/

/-- The loop from a cursor on: the cursors at the heads of its iterations, and the cursor at which it
ends. -/
inductive Scans (s : ModelSettings) (shape : Shape) (p : Float) :
    Cursor → Source → List Cursor → Cursor → Source → Prop
  | done {c : Cursor} {source : Source} (hend : c.cells.length ≤ c.position) :
    Scans s shape p c source [] c source
  | visit {c last : Cursor} {cell : Cell} {m : Move} {heads : List Cursor} {source t u : Source}
    (hcell : c.cells[c.position]? = some cell)
    (hmove : move s shape p c.before cell.instruction c.behind source = (.ok m, t))
    (hrest : Scans s shape p (c.after cell m) t heads last u) :
    Scans s shape p c source (c :: heads) last u

/-- The loop comes to a move that is not drawn, because the source is exhausted. -/
inductive Stalls (s : ModelSettings) (shape : Shape) (p : Float) : Cursor → Source → Prop
  | here {c : Cursor} {cell : Cell} {source t : Source} (hcell : c.cells[c.position]? = some cell)
    (hmove : move s shape p c.before cell.instruction c.behind source = (.error .stalled, t)) :
    Stalls s shape p c source
  | later {c : Cursor} {cell : Cell} {m : Move} {source t : Source}
    (hcell : c.cells[c.position]? = some cell)
    (hmove : move s shape p c.before cell.instruction c.behind source = (.ok m, t))
    (hrest : Stalls s shape p (c.after cell m) t) : Stalls s shape p c source

namespace Cursor

variable {c : Cursor} {cell : Cell} {m : Move} {source t : Source}

/-- The place in the code at which a cursor stands. -/
def place (c : Cursor) : Place := (c.before, instructions c.ahead)

lemma ahead_eq (hcell : c.cells[c.position]? = some cell) :
    c.ahead = cell :: c.cells.drop (c.position + 1) := by
  obtain ⟨hlt, rfl⟩ := List.getElem?_eq_some_iff.mp hcell
  exact List.drop_eq_getElem_cons hlt

lemma place_eq (hcell : c.cells[c.position]? = some cell) :
    c.place = (c.before, cell.instruction :: c.behind) := by
  rw [place, ahead_eq hcell, behind, code, ← List.map_drop]
  rfl

/-- A pass at a cell makes a move there. -/
lemma mutatePass_place (hcell : c.cells[c.position]? = some cell) :
    mutatePass s shape p c.place.1 c.place.2
      = move s shape p c.before cell.instruction c.behind >>= fun m =>
        mutatePass s shape p (m.place c.before cell.instruction c.behind).1
          (m.place c.before cell.instruction c.behind).2 := by
  rw [place_eq hcell, mutatePass_cons, turn_eq_move, Act.bind_assoc]
  rfl

variable (hcell : c.cells[c.position]? = some cell)
  (hmove : move s shape p c.before cell.instruction c.behind source = (.ok m, t))
include hcell hmove

/-- What is ahead of the next head is the end of what stood behind the cell. -/
lemma ahead_after : (c.after cell m).ahead <:+ c.cells.drop (c.position + 1) := by
  have hm := (returns_move _ _ _).ok hmove
  obtain ⟨done, rest, rfl⟩ := exists_split hcell
  obtain ⟨done', rest', hafter, hsuffix, -⟩ := exists_after done rest cell hm
  rw [hafter, ahead_mk]
  simpa using hsuffix

lemma place_after :
    (c.after cell m).place = m.place c.before cell.instruction c.behind := by
  have hm := (returns_move _ _ _).ok hmove
  obtain ⟨done, rest, rfl⟩ := exists_split hcell
  obtain ⟨done', rest', hafter, -, hplace⟩ := exists_after done rest cell hm
  rw [hafter, place, ahead_mk, before_mk, before_mk, behind_mk, hplace]

/-- A pass goes on from the next head. -/
lemma mutatePass_after : mutatePass s shape p c.place.1 c.place.2 source
    = mutatePass s shape p (c.after cell m).place.1 (c.after cell m).place.2 t := by
  rw [mutatePass_place hcell, Act.bind_apply, hmove]
  dsimp only
  rw [place_after hcell hmove]

/-- Less is ahead of the next head. -/
lemma length_ahead_after : (c.after cell m).ahead.length < c.ahead.length := by
  have hsuffix := (ahead_after hcell hmove).length_le
  rw [ahead_eq hcell, List.length_cons]
  omega

end Cursor

/-- **The loop draws what a pass draws, and comes to the same code.** -/
theorem Scans.mutatePass {c last : Cursor} {heads : List Cursor} {source u : Source}
    (h : Scans s shape p c source heads last u) :
    Forest.mutatePass s shape p c.place.1 c.place.2 source = (.ok last.code, u) := by
  induction h with
  | @done c source hend =>
    have hahead : instructions c.ahead = [] := by
      rw [Cursor.ahead, List.drop_of_length_le hend]
      rfl
    have hbefore : c.before.reverse = c.code := by
      rw [Cursor.before, List.reverse_reverse, List.take_of_length_le]
      rwa [Cursor.code, List.length_map]
    rw [Cursor.place, hahead, Forest.mutatePass, hbefore]
    rfl
  | visit hcell hmove _ ih =>
    rw [Cursor.mutatePass_after hcell hmove]
    exact ih

/-- Where the loop comes to no end, a pass comes to none. -/
theorem Stalls.mutatePass {c : Cursor} {source : Source} (h : Stalls s shape p c source) :
    ∃ u, Forest.mutatePass s shape p c.place.1 c.place.2 source = (.error .stalled, u) := by
  induction h with
  | @here c cell source t hcell hmove =>
    refine ⟨t, ?_⟩
    rw [Cursor.mutatePass_place hcell, Act.bind_apply, hmove]
  | later hcell hmove _ ih =>
    rw [Cursor.mutatePass_after hcell hmove]
    exact ih

/-- **The loop comes to an end**, unless a move is not drawn. -/
theorem scans_or_stalls (c : Cursor) (source : Source) :
    (∃ heads last u, Scans s shape p c source heads last u) ∨ Stalls s shape p c source := by
  -- less and less is ahead of the cursor
  induction hlength : c.ahead.length using Nat.strong_induction_on generalizing c source with
  | _ n ih =>
    subst hlength
    cases hcell : c.cells[c.position]? with
    | none => exact .inl ⟨[], c, source, .done (List.getElem?_eq_none_iff.mp hcell)⟩
    | some cell =>
      rcases hmove : move s shape p c.before cell.instruction c.behind source with ⟨e | m, t⟩
      · obtain rfl : e = .stalled := Act.Triple.error (returns_move _ _ _) trivial hmove
        exact .inr (.here hcell hmove)
      · rcases ih _ (Cursor.length_ahead_after hcell hmove) (c.after cell m) t rfl with
          ⟨heads, last, u, hrest⟩ | hrest
        · exact .inl ⟨c :: heads, last, u, .visit hcell hmove hrest⟩
        · exact .inr (.later hcell hmove hrest)

/-! ### What is visited -/

namespace Scans

variable {c last : Cursor} {heads : List Cursor} {source u : Source}

/-- What is ahead of any head is the end of what was ahead at first. -/
lemma suffix (h : Scans s shape p c source heads last u) :
    ∀ d ∈ heads ++ [last], d.ahead <:+ c.ahead := by
  induction h with
  | done => exact fun d hd => List.mem_singleton.mp hd ▸ List.suffix_refl _
  | visit hcell hmove _ ih =>
    refine List.forall_mem_cons.mpr ⟨List.suffix_refl _, fun d hd => ?_⟩
    rw [Cursor.ahead_eq hcell]
    exact ((ih d hd).trans (Cursor.ahead_after hcell hmove)).trans (List.suffix_cons _ _)

/-- From head to head less is ahead. -/
lemma shorter (h : Scans s shape p c source heads last u) :
    (heads ++ [last]).Pairwise fun d e => e.ahead.length < d.ahead.length := by
  induction h with
  | done => exact List.pairwise_singleton _ _
  | visit hcell hmove hrest ih =>
    refine List.pairwise_cons.mpr ⟨fun d hd => ?_, ih⟩
    exact (hrest.suffix d hd).length_le.trans_lt (Cursor.length_ahead_after hcell hmove)

/-- There are no more iterations than instructions ahead. -/
lemma length_le (h : Scans s shape p c source heads last u) : heads.length ≤ c.ahead.length := by
  induction h with
  | done => exact Nat.zero_le _
  | visit hcell hmove _ ih =>
    exact Nat.succ_le_of_lt (ih.trans_lt (Cursor.length_ahead_after hcell hmove))

/-- There is an instruction to be visited at every head. -/
lemma exists_cell (h : Scans s shape p c source heads last u) :
    ∀ d ∈ heads, ∃ cell, d.cells[d.position]? = some cell := by
  induction h with
  | done => exact nofun
  | visit hcell _ _ ih => exact List.forall_mem_cons.mpr ⟨⟨_, hcell⟩, ih⟩

end Scans

/-- The cell at a cursor that has the end of a buffer ahead of it is the one from this buffer. -/
lemma Cursor.getElem?_position {d : Cursor} {code : Code Float} (h : d.ahead <:+ Forest.cells code) :
    d.cells[d.position]? = code[code.length - d.ahead.length]?.map
      fun i => ⟨i, some (code.length - d.ahead.length)⟩ := by
  have hlength : (Forest.cells code).length = code.length := List.length_mapIdx
  rw [← getElem?_cells, ← hlength]
  calc d.cells[d.position]? = d.ahead[0]? := by rw [Cursor.ahead, List.getElem?_drop, Nat.add_zero]
    _ = ((Forest.cells code).drop ((Forest.cells code).length - d.ahead.length))[0]? := by
      rw [← List.suffix_iff_eq_drop.mp h]
    _ = _ := by rw [List.getElem?_drop, Nat.add_zero]

/-- The loop visits instructions of the code before the pass only, each of them at most once. -/
structure VisitsOnce (code : Code Float) (heads : List Cursor) (last : Cursor) : Prop where
  /-- What is ahead of a head is the end of the code before the pass. -/
  suffix : ∀ c ∈ heads ++ [last], c.code.drop c.position <:+ code
  /-- It is shorter than at every head before. -/
  shorter : (heads ++ [last]).Pairwise fun c d =>
    (d.code.drop d.position).length < (c.code.drop c.position).length
  length_le : heads.length ≤ code.length
  /-- What is visited has stood at higher and higher positions, so that it was not put in. -/
  visited : ∃ positions : List ℕ, positions.Pairwise (· < ·) ∧
    List.Forall₂ (fun c n => ∃ i, code[n]? = some i ∧ c.cells[c.position]? = some ⟨i, some n⟩)
      heads positions

/-- A loop from the start of a buffer visits what was in it once. -/
lemma Scans.visitsOnce {code : Code Float} {heads : List Cursor} {last : Cursor}
    {source u : Source} (h : Scans s shape p (.start code) source heads last u) :
    VisitsOnce code heads last := by
  have hdrop : ∀ c : Cursor, c.code.drop c.position = instructions c.ahead := fun c =>
    List.map_drop.symm
  have hstart : (Cursor.start code).ahead = cells code := List.drop_zero
  have hlength : (cells code).length = code.length := List.length_mapIdx
  have hsuffix : ∀ c ∈ heads ++ [last], c.ahead <:+ cells code := fun c hc =>
    hstart ▸ h.suffix c hc
  refine ⟨fun c hc => ?_, ?_, ?_, heads.map fun c => code.length - c.ahead.length, ?_, ?_⟩
  · rw [hdrop, ← instructions_cells code]
    exact (hsuffix c hc).map _
  · simpa only [hdrop, List.length_map] using h.shorter
  · have hle := h.length_le
    rwa [hstart, hlength] at hle
  · refine List.pairwise_map.mpr ((List.pairwise_append.mp h.shorter).1.imp_of_mem ?_)
    intro c d hc _ hcd
    have hle := (hsuffix c (List.mem_append_left _ hc)).length_le
    omega
  · rw [List.forall₂_map_right_iff, List.forall₂_same]
    intro c hc
    obtain ⟨cell, hcell⟩ := h.exists_cell c hc
    have horigin := hcell
    rw [Cursor.getElem?_position (hsuffix c (List.mem_append_left _ hc))] at horigin
    obtain ⟨i, hi, rfl⟩ := Option.map_eq_some_iff.mp horigin
    exact ⟨i, hi, hcell⟩

lemma Cursor.place_start (code : Code Float) : (start code).place = ([], code) := by
  rw [place, start, ahead, List.drop_zero, instructions_cells]
  rfl

section

variable {ctx : Context Float} {f : Forest Float} {source : Source}

/-- A forest is mutated to the code that the loop leaves. -/
lemma Scans.mutated {heads : List Cursor} {last : Cursor} {u : Source}
    (h : Scans ctx.settings ctx.shape p (.start f.code) source heads last u) :
    Forest.mutated ctx p f source = (.ok { f with code := last.code, fitness? := none }, u) := by
  have hpass := h.mutatePass
  rw [Cursor.place_start] at hpass
  rw [Forest.mutated, Act.bind_apply, hpass]
  rfl

lemma Stalls.mutated (h : Stalls ctx.settings ctx.shape p (.start f.code) source) :
    ∃ u, Forest.mutated ctx p f source = (.error .stalled, u) := by
  obtain ⟨u, hpass⟩ := h.mutatePass
  rw [Cursor.place_start] at hpass
  exact ⟨u, by rw [Forest.mutated, Act.bind_apply, hpass]⟩

end

/-- **A mutation pass visits every position at most once.**  It comes to a forest exactly if the loop
in its buffer comes to an end, and then to the code that the loop leaves; the loop has no end only
where the source is exhausted.  What is ahead of the cursor is always the end of the code before the
pass, shorter and shorter, so that there are no more iterations than instructions and nothing that
was put in is visited.  With a probability of zero or less no instruction changes. -/
theorem mutated_visits_once (ctx : Context Float) (p : Float) (f : Forest Float) (source : Source) :
    (∀ g u, mutated ctx p f source = (.ok g, u) ↔
      ∃ heads last, Scans ctx.settings ctx.shape p (.start f.code) source heads last u ∧
        g = { f with code := last.code, fitness? := none }) ∧
    ((∃ e u, mutated ctx p f source = (.error e, u)) ↔
      Stalls ctx.settings ctx.shape p (.start f.code) source) ∧
    (∀ heads last u, Scans ctx.settings ctx.shape p (.start f.code) source heads last u →
      VisitsOnce f.code heads last) ∧
    (p ≤ 0.0 → ∃ u, mutated ctx p f source = (.ok { f with fitness? := none }, u)) := by
  refine ⟨fun g u => ⟨fun h => ?_, ?_⟩, ⟨fun ⟨e, u, h⟩ => ?_, fun h => ⟨.stalled, h.mutated⟩⟩,
    fun heads last u h => h.visitsOnce, fun hp => ?_⟩
  · rcases scans_or_stalls (.start f.code) source with ⟨heads, last, u', hrun⟩ | hstall
    · rw [hrun.mutated] at h
      cases h
      exact ⟨heads, last, hrun, rfl⟩
    · obtain ⟨u', hu'⟩ := hstall.mutated
      rw [hu'] at h
      cases h
  · rintro ⟨heads, last, hrun, rfl⟩
    exact hrun.mutated
  · refine (scans_or_stalls (.start f.code) source).resolve_left ?_
    rintro ⟨heads, last, u', hrun⟩
    rw [hrun.mutated] at h
    cases h
  · obtain ⟨u, hu⟩ := mutatePass_of_le_zero hp [] f.code source
    refine ⟨u, ?_⟩
    rw [mutated, Act.bind_apply, hu]
    rfl

/-- A tree of three instructions takes the place of the only one, and none of the three is visited. -/
theorem mutated_visits_once_grafted :
    let ctx : Context Float := .fuzzy ⟨#[0.5, 1.0], 1, 2, 1, none, rfl, by decide⟩ {}
    let f : Forest Float := ofCode 1 [.input 0 0.25, .separator]
    let source := Source.ofWords #[0, 0xC000000000000000, 0xE666666666666800, 0xE666666666666800,
      0xE666666666666800] fun _ => 0
    ∃ g u heads last, mutated ctx 1.0 f source = (.ok g, u) ∧ g.code.length = 4 ∧
      Scans ctx.settings ctx.shape 1.0 (.start f.code) source heads last u ∧
      g.code = last.code ∧ heads.length ≤ 2 ∧ VisitsOnce f.code heads last ∧
      ∃ u, mutated ctx 0.0 f source = (.ok { f with fitness? := none }, u) := by
  intro ctx f source
  obtain ⟨hscans, -, hvisits, -⟩ := mutated_visits_once ctx 1.0 f source
  have hlength : (mutated ctx 1.0 f source).1.toOption.map (fun g => g.code.length) = some 4 := by
    decide +kernel
  rcases hmutated : mutated ctx 1.0 f source with ⟨e | g, u⟩ <;> rw [hmutated] at hlength
  · cases hlength
  · obtain ⟨heads, last, hrun, hg⟩ := (hscans g u).mp hmutated
    have honce := hvisits heads last u hrun
    exact ⟨g, u, heads, last, rfl, Option.some.inj hlength, hrun, by rw [hg], honce.length_le,
      honce, (mutated_visits_once ctx 0.0 f source).2.2.2 (by decide +kernel)⟩

end Forest

end FuzzyForest
