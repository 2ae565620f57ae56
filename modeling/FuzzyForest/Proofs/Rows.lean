/-
Datasets of rows.

A dataset keeps its rows end to end in one list of values and reads them in three ways: a row is a
part of the list, its targets are the end of that part, and a sum steps from row to row.
`Dataset.Holds` says that the values are those of some rows.  The main results are

* `exists_ofRows` and `exists_raggedRow`: rows of one width form a dataset, unless there are too many
  targets, and otherwise the fault is that of the first row that differs;
* `Holds.row_eq` and `Holds.getElem?_rtake`: what is read are the rows and their last entries;
* `Holds.map_rows_counted`: the rows that count are those that are left when one is erased;
* `ofRows_shows`: a dataset shows the rows that it is built from, whichever row is left out.
-/
import FuzzyForest.Proofs.ErasedRow

namespace FuzzyForest

open Mutation (skipping)

variable {α : Type}

/-- The width of the first row, zero if there is none. -/
def firstWidth (rows : List (List α)) : ℕ := (rows.head?.map List.length).getD 0

/-- The rows but one, if there is such a row. -/
def otherRows (rows : List (List α)) : Option ℕ → List (List α)
  | none => rows
  | some k => rows.eraseIdx k

lemma firstWidth_eq {rows : List (List α)} {width : ℕ} (h : ∀ row ∈ rows, row.length = width)
    (hempty : rows = [] → width = 0) : firstWidth rows = width := by
  cases rows with
  | nil => exact (hempty rfl).symm
  | cons row rows => exact h row List.mem_cons_self

/-- Rows of one width are as many parts of the same length. -/
lemma sum_take_length {rows : List (List α)} {width : ℕ} (h : ∀ row ∈ rows, row.length = width)
    {i : ℕ} (hi : i ≤ rows.length) : ((rows.map List.length).take i).sum = i * width := by
  rw [List.map_eq_replicate_iff.mpr h, List.take_replicate, List.sum_replicate, Nat.min_eq_left hi,
    smul_eq_mul]

/-- A row is a part of the rows end to end. -/
lemma extract_flatten {rows : List (List α)} {width : ℕ} (h : ∀ row ∈ rows, row.length = width)
    {i : ℕ} (hi : i < rows.length) :
    (rows.flatten.take ((i + 1) * width)).drop (i * width) = rows[i] := by
  rw [← List.drop_take_succ_flatten_eq_getElem rows i hi, sum_take_length h hi,
    sum_take_length h (Nat.le_of_lt hi)]

namespace Dataset

/-! ### Building -/

lemma raggedRow?_eq_none_iff {rows : List (List α)} {width : ℕ} :
    raggedRow? width rows = none ↔ ∀ row ∈ rows, row.length = width := by
  rw [raggedRow?, Option.map_eq_none_iff, List.find?_eq_none]
  refine ⟨fun h row hrow => ?_, fun h pair hpair => ?_⟩
  · obtain ⟨i, hi, rfl⟩ := List.getElem_of_mem hrow
    have hmem : (rows[i], i) ∈ rows.zipIdx := List.mk_mem_zipIdx_iff_getElem?.mpr (by simp)
    simpa using h _ hmem
  · simpa using h _ (List.fst_mem_of_mem_zipIdx hpair)

/-- The row that is found is the first one of another width. -/
lemma eq_of_raggedRow? {rows : List (List α)} {width i w : ℕ}
    (h : raggedRow? width rows = some (i, w)) : ∃ row, rows[i]? = some row ∧ row.length = w ∧
      w ≠ width ∧ ∀ earlier ∈ rows.take i, earlier.length = width := by
  rw [raggedRow?, Option.map_eq_some_iff] at h
  obtain ⟨⟨row, i⟩, hfind, hpair⟩ := h
  cases hpair
  obtain ⟨hwidth, k, hk, hrow, hearlier⟩ := List.find?_eq_some_iff_getElem.mp hfind
  rw [List.getElem_zipIdx, Nat.zero_add, Prod.mk.injEq] at hrow
  obtain ⟨rfl, rfl⟩ := hrow
  refine ⟨_, List.getElem?_eq_getElem _, rfl, by simpa using hwidth, fun earlier hmem => ?_⟩
  obtain ⟨j, hj, rfl⟩ := List.mem_take_iff_getElem.mp hmem
  simpa using hearlier j (by omega)

/-- The values of a dataset are those of the rows, end to end. -/
structure Holds (ds : Dataset α) (rows : List (List α)) : Prop where
  values : ds.values = rows.flatten.toArray
  records : ds.records = rows.length
  columns : ds.columns = firstWidth rows
  width : ∀ row ∈ rows, row.length = ds.columns

section

variable {rows : List (List α)} {targets : ℕ}

/-- Rows of one width are as many values as there are cells. -/
lemma size_flatten (hwidth : ∀ row ∈ rows, row.length = firstWidth rows) :
    rows.flatten.toArray.size = rows.length * firstWidth rows := by
  rw [List.size_toArray, List.length_flatten, ← List.take_length (l := rows.map List.length),
    List.length_map, sum_take_length hwidth le_rfl]

lemma ofRows_eq (rows : List (List α)) (targets : ℕ) :
    ofRows rows targets = match raggedRow? (firstWidth rows) rows with
      | some (row, width) => .error (.raggedRow row width (firstWidth rows))
      | none => ofValues rows.flatten.toArray rows.length (firstWidth rows) targets := rfl

lemma ofRows_of_width (hwidth : ∀ row ∈ rows, row.length = firstWidth rows) :
    ofRows rows targets
      = ofValues rows.flatten.toArray rows.length (firstWidth rows) targets := by
  rw [ofRows_eq, raggedRow?_eq_none_iff.mpr hwidth]

/-- Rows of one width form a dataset. -/
lemma exists_ofRows (hwidth : ∀ row ∈ rows, row.length = firstWidth rows)
    (htargets : targets ≤ firstWidth rows) : ∃ ds, ofRows rows targets = .ok ds ∧ ds.Holds rows ∧
      ds.targets = targets ∧ ds.leaveOut = none := by
  refine ⟨⟨rows.flatten.toArray, rows.length, firstWidth rows, targets, none, size_flatten hwidth,
    htargets⟩, ?_, ⟨rfl, rfl, rfl, hwidth⟩, rfl, rfl⟩
  rw [ofRows_of_width hwidth, ofValues, dif_pos (size_flatten hwidth), dif_pos htargets]

/-- There is nothing else to be said of rows of one width than that there are too many targets. -/
lemma ofRows_of_targets_lt (hwidth : ∀ row ∈ rows, row.length = firstWidth rows)
    (htargets : firstWidth rows < targets) :
    ofRows rows targets = .error (.tooManyTargets (firstWidth rows) targets) := by
  rw [ofRows_of_width hwidth, ofValues, dif_pos (size_flatten hwidth),
    dif_neg (Nat.not_le.mpr htargets)]

/-- Otherwise the fault is that of the first row of another width. -/
lemma exists_raggedRow (hwidth : ¬∀ row ∈ rows, row.length = firstWidth rows) (targets : ℕ) :
    ∃ (i : ℕ) (row : List α), rows[i]? = some row ∧ row.length ≠ firstWidth rows ∧
      (∀ earlier ∈ rows.take i, earlier.length = firstWidth rows) ∧
      ofRows rows targets = .error (.raggedRow i row.length (firstWidth rows)) := by
  obtain ⟨⟨i, w⟩, hragged⟩ : ∃ fault, raggedRow? (firstWidth rows) rows = some fault :=
    Option.ne_none_iff_exists'.mp (mt raggedRow?_eq_none_iff.mp hwidth)
  obtain ⟨row, hrow, rfl, hne, hearlier⟩ := eq_of_raggedRow? hragged
  exact ⟨i, row, hrow, hne, hearlier, by rw [ofRows_eq, hragged]⟩

end

/-! ### Reading -/

namespace Holds

variable {ds : Dataset α} {rows : List (List α)} {i : ℕ}

/-- It does not matter for the values which row is left out. -/
lemma withLeaveOut (h : ds.Holds rows) (row : Option ℕ) : (ds.withLeaveOut row).Holds rows :=
  ⟨h.values, h.records, h.columns, h.width⟩

lemma lt_records (h : ds.Holds rows) {row : List α} (hi : rows[i]? = some row) : i < ds.records := by
  rw [h.records]
  exact (List.getElem?_eq_some_iff.mp hi).1

/-- The rows are read as they are. -/
lemma row_eq (h : ds.Holds rows) {row : List α} (hi : rows[i]? = some row) : ds.row i = row := by
  obtain ⟨hlt, rfl⟩ := List.getElem?_eq_some_iff.mp hi
  rw [Dataset.row, h.values, Array.toList_extract, List.extract_eq_take_drop, ← List.drop_take,
    extract_flatten h.width hlt]

lemma length_row (h : ds.Holds rows) {row : List α} (hi : rows[i]? = some row) :
    row.length = ds.columns := h.width row (List.mem_of_getElem? hi)

/-- The targets of a row are its last entries. -/
lemma targetValues_eq (h : ds.Holds rows) {row : List α} (hi : rows[i]? = some row) :
    ds.targetValues i = row.rtake ds.targets := by
  rw [targetValues, h.row_eq hi, inputs, List.rtake, h.length_row hi]

/-- A cell is an entry of its row. -/
lemma cell?_eq (h : ds.Holds rows) {row : List α} (hi : rows[i]? = some row) {column : ℕ}
    (hcolumn : column < ds.columns) : ds.cell? i column = row[column]? := by
  have hrow := h.lt_records hi
  rw [← h.row_eq hi, cell?, if_pos hcolumn, rowStart_eq hrow, Dataset.row, Array.getElem?_toList,
    Array.getElem?_extract, if_pos]
  have hend := rowEnd_le hrow
  rw [Nat.succ_mul]
  omega

/-- What a sum adds for a row is one of its last entries. -/
lemma getElem?_rtake [Scalar α] (h : ds.Holds rows) {row : List α} (hi : rows[i]? = some row)
    {t : ℕ} (ht : t < ds.targets) : (row.rtake ds.targets)[t]? = some (ds.target i t) := by
  have hcolumn : ds.inputs + t < ds.columns := by
    rw [← ds.inputs_add_targets]
    omega
  obtain ⟨x, hx⟩ := cell?_eq_some (h.lt_records hi) hcolumn
  rw [target, hx, Option.getD_some, ← hx, h.cell?_eq hi hcolumn, List.rtake, h.length_row hi,
    List.getElem?_drop]
  rfl

/-! ### Summing -/

/-- The rows that count are the others. -/
lemma map_rows_counted (h : ds.Holds rows) :
    (ds.counted.map fun i => rows[i]?) = (otherRows rows ds.leaveOut).map some := by
  have hall : ∀ rows : List (List α),
      ((List.range rows.length).map fun i => rows[i]?) = rows.map some := fun rows =>
    List.ext_getElem (by simp) fun i _ _ => by simp
  rcases hleaveOut : ds.leaveOut with - | k
  · rw [counted_of_leaveOut (by simp [hleaveOut]), h.records, hall, otherRows]
  · rcases Nat.lt_or_ge k rows.length with hk | hk
    · have hcounted : ds.counted = (List.range (rows.length - 1)).map (skipping k) := by
        rw [← filter_ne_range (by omega), Nat.sub_add_cancel (by omega), counted, h.records,
          hleaveOut]
        simp
      have hskipping : ∀ i, rows[skipping k i]? = (rows.eraseIdx k)[i]? := by
        intro i
        rw [List.getElem?_eraseIdx, skipping]
        split <;> split <;> first | rfl | omega
      rw [hcounted, List.map_map, otherRows, ← hall, List.length_eraseIdx_of_lt hk]
      exact List.map_congr_left fun i _ => hskipping i
    · have hnone : ∀ row < ds.records, some row ≠ ds.leaveOut := by
        intro row hrow
        rw [hleaveOut, Ne, Option.some.injEq]
        have := h.records
        omega
      rw [counted_of_leaveOut hnone, h.records, hall, otherRows, List.eraseIdx_of_length_le hk]

/-- A sum adds an entry of each row but the one that is left out. -/
lemma map_target_counted [Scalar α] (h : ds.Holds rows) {t : ℕ} (ht : t < ds.targets) :
    (ds.counted.map fun i => ds.target i t).map some
      = (otherRows rows ds.leaveOut).map fun row => (row.rtake ds.targets)[t]? := by
  have hrows : ((otherRows rows ds.leaveOut).map fun row => (row.rtake ds.targets)[t]?)
      = (ds.counted.map fun i => rows[i]?).map fun row? =>
        row?.bind fun row => (row.rtake ds.targets)[t]? := by
    rw [h.map_rows_counted, List.map_map]
    rfl
  rw [hrows, List.map_map, List.map_map]
  refine List.map_congr_left fun i hi => ?_
  have hlt : i < rows.length := by
    rw [← h.records]
    exact List.mem_range.mp (List.mem_filter.mp hi).1
  have hrow : rows[i]? = some rows[i] := List.getElem?_eq_getElem hlt
  simp only [Function.comp_apply, hrow, Option.bind_some, h.getElem?_rtake hrow ht]

end Holds

/-- What a dataset shows of rows that end with so many targets, while one row is left out. -/
structure Shows [Scalar α] (ds : Dataset α) (rows : List (List α)) (targets : ℕ)
    (leaveOut : Option ℕ) : Prop where
  records_eq : ds.records = rows.length
  columns_eq : ds.columns = firstWidth rows
  targets_eq : ds.targets = targets
  leaveOut_eq : ds.leaveOut = leaveOut
  inputs_add_targets : ds.inputs + ds.targets = ds.columns
  row_eq : ∀ (i : ℕ) (h : i < rows.length), ds.row i = rows[i]
  targetValues_eq : ∀ (i : ℕ) (h : i < rows.length), ds.targetValues i = rows[i].rtake targets
  /-- A target is added up from row to row, the one that is left out apart. -/
  sigma_eq : ∀ t < targets, ∃ terms : List α,
    terms.map some = (otherRows rows leaveOut).map (fun row => (row.rtake targets)[t]?) ∧
      ds.sigma t = terms.foldl (· + ·) Scalar.emptySum

lemma Holds.shows [Scalar α] {ds : Dataset α} {rows : List (List α)} (h : ds.Holds rows) :
    ds.Shows rows ds.targets ds.leaveOut where
  records_eq := h.records
  columns_eq := h.columns
  targets_eq := rfl
  leaveOut_eq := rfl
  inputs_add_targets := ds.inputs_add_targets
  row_eq _ hi := h.row_eq (List.getElem?_eq_getElem hi)
  targetValues_eq _ hi := h.targetValues_eq (List.getElem?_eq_getElem hi)
  sigma_eq _ ht := ⟨_, h.map_target_counted ht, rfl⟩

/-! ### Leaving out one row after the other -/

/-- What was left out before does not matter. -/
lemma foldl_withLeaveOut (ds : Dataset α) (leaveOuts : List (Option ℕ)) :
    leaveOuts.foldl withLeaveOut ds = ds.withLeaveOut (leaveOuts.getLast?.getD ds.leaveOut) := by
  induction leaveOuts using List.reverseRecOn with
  | nil => rfl
  | append_singleton earlier row ih =>
    rw [List.foldl_append, ih, List.getLast?_concat, Option.getD_some]
    rfl

/-- A dataset with the sums of its targets, which are not added up again when they are asked for. -/
structure Summed (α : Type) where
  dataset : Dataset α
  sums : List α

section

variable [Scalar α]

/-- The sums are added up. -/
def Summed.refreshed (d : Summed α) : Summed α := { d with sums := d.dataset.sigmas }

/-- A dataset whose sums are added up for the first time. -/
def summed (ds : Dataset α) : Summed α := Summed.refreshed ⟨ds, []⟩

/-- Another row is left out, and the sums are added up again. -/
def Summed.withLeaveOut (d : Summed α) (row : Option ℕ) : Summed α :=
  Summed.refreshed { d with dataset := d.dataset.withLeaveOut row }

/-- The sums that are kept are those of the dataset, whichever rows were left out. -/
lemma foldl_summed (ds : Dataset α) (leaveOuts : List (Option ℕ)) :
    leaveOuts.foldl Summed.withLeaveOut ds.summed = (leaveOuts.foldl withLeaveOut ds).summed :=
  List.foldl_hom summed fun _ _ => rfl

lemma getElem?_sums (ds : Dataset α) {t : ℕ} (ht : t < ds.targets) :
    ds.summed.sums[t]? = some (ds.sigma t) := by
  show ds.sigmas[t]? = _
  rw [sigmas, List.getElem?_map, List.getElem?_range ht]
  rfl

end

/-- **A dataset shows the rows that it is built from.**  Rows can be built into a dataset exactly if
they have one width and no more targets are asked for, and otherwise the fault is that of the first
row of another width, or of the targets.  Then every row is read as it is, its targets are its last
entries, and whichever rows are left out in turn, each target is added up from the first row to the
last over all rows but the one that was left out last.  Sums that are kept are the same. -/
theorem ofRows_shows [Scalar α] (rows : List (List α)) (targets : ℕ) :
    ((∃ ds, ofRows rows targets = .ok ds) ↔ ∃ width, (∀ row ∈ rows, row.length = width) ∧
      (rows = [] → width = 0) ∧ targets ≤ width) ∧
    (∀ ds, ofRows rows targets = .ok ds → ∀ leaveOuts : List (Option ℕ),
      (leaveOuts.foldl withLeaveOut ds).Shows rows targets (leaveOuts.getLast?.getD none) ∧
      ∀ t < targets, (leaveOuts.foldl Summed.withLeaveOut ds.summed).sums[t]?
        = some ((leaveOuts.foldl withLeaveOut ds).sigma t)) ∧
    ∀ e, ofRows rows targets = .error e →
      (∃ (i : ℕ) (row : List α), rows[i]? = some row ∧ row.length ≠ firstWidth rows ∧
        (∀ earlier ∈ rows.take i, earlier.length = firstWidth rows) ∧
        e = .raggedRow i row.length (firstWidth rows)) ∨
      (∀ row ∈ rows, row.length = firstWidth rows) ∧ firstWidth rows < targets ∧
        e = .tooManyTargets (firstWidth rows) targets := by
  by_cases hwidth : ∀ row ∈ rows, row.length = firstWidth rows
  · rcases Nat.lt_or_ge (firstWidth rows) targets with htargets | htargets
    · rw [ofRows_of_targets_lt hwidth htargets]
      refine ⟨iff_of_false nofun ?_, nofun, fun e he => .inr ⟨hwidth, htargets, ?_⟩⟩
      · rintro ⟨width, hsame, hempty, hle⟩
        rw [firstWidth_eq hsame hempty] at htargets
        omega
      · cases he
        rfl
    · obtain ⟨ds, hds, hholds, rfl, hnone⟩ := exists_ofRows hwidth htargets
      have hempty : rows = [] → firstWidth rows = 0 := by
        rintro rfl
        rfl
      rw [hds]
      refine ⟨iff_of_true ⟨ds, rfl⟩ ⟨_, hwidth, hempty, htargets⟩, fun ds' hds' leaveOuts => ?_,
        nofun⟩
      cases hds'
      rw [foldl_summed, foldl_withLeaveOut, hnone]
      exact ⟨(hholds.withLeaveOut _).shows, fun t ht => getElem?_sums (ds.withLeaveOut _) ht⟩
  · obtain ⟨i, row, hrow, hne, hearlier, hragged⟩ := exists_raggedRow hwidth targets
    rw [hragged]
    refine ⟨iff_of_false nofun ?_, nofun, fun e he => .inl ⟨i, row, hrow, hne, hearlier, ?_⟩⟩
    · rintro ⟨width, hsame, hempty, -⟩
      rw [firstWidth_eq hsame hempty] at hwidth
      exact hwidth hsame
    · cases he
      rfl

/-- Three rows with one target, of which the first one is left out in the end, and rows that differ
in width. -/
theorem ofRows_shows_first_left_out :
    let rows : List (List Float) := [[0.1, 0.2, 1.0], [0.3, 0.4, 0.0], [0.5, 0.6, 0.5]]
    (∃ ds, ofRows rows 1 = .ok ds ∧ ds.row 1 = [0.3, 0.4, 0.0] ∧ ds.targetValues 2 = [0.5] ∧
      ds.sigma 0 = 1.5 ∧ ([some 2, none, some 0].foldl withLeaveOut ds).sigma 0 = 0.5) ∧
    ¬∃ ds, ofRows [[(0.1 : Float), 0.2], [0.3]] 1 = .ok ds := by
  intro rows
  obtain ⟨hiff, hshows, -⟩ := ofRows_shows rows 1
  obtain ⟨ds, hds⟩ := hiff.mpr ⟨3, by decide, nofun, by decide⟩
  have hsome : Function.Injective (List.map (some : Float → Option Float)) :=
    List.map_injective_iff.mpr (Option.some_injective Float)
  obtain ⟨hall, -⟩ := hshows ds hds []
  obtain ⟨terms, hterms, hsum⟩ := hall.sigma_eq 0 Nat.one_pos
  obtain rfl : terms = [1.0, 0.0, 0.5] := hsome hterms
  obtain ⟨hleft, -⟩ := hshows ds hds [some 2, none, some 0]
  obtain ⟨terms, hterms, hsum'⟩ := hleft.sigma_eq 0 Nat.one_pos
  obtain rfl : terms = [0.0, 0.5] := hsome hterms
  refine ⟨⟨ds, hds, hall.row_eq 1 (by decide), hall.targetValues_eq 2 (by decide), ?_, ?_⟩, ?_⟩
  · exact hsum.trans (by decide +kernel)
  · exact hsum'.trans (by decide +kernel)
  · rintro hragged
    obtain ⟨width, hwidth, -⟩ := (ofRows_shows _ 1).1.mp hragged
    have hfirst : 2 = width := hwidth [0.1, 0.2] (by simp)
    have hsecond : 1 = width := hwidth [0.3] (by simp)
    omega

end Dataset

end FuzzyForest
