import Mathlib
import PredictiveParsing.Text.Basic

/-!
# Texts in columns

A line whose cells are joined by one gap can be cut up again, since it is known where every cell
begins. Lines with the same widths have their gaps below each other.

* `Text.slice`, `columnStart`: a part of a text, and where a column begins;
* `length_intercalate_gap`, `slice_cell`, `slice_gap`: a line, its cells and its gaps;
* `isGreatest_foldl_max`: the greatest of some lengths;
* `Text.Aligned`: lines in columns that are as wide as their longest cells;
* `widthOf`, `filledCells`, `lineOf`: such lines; **`aligned_lineOf`**.
-/

namespace PredictiveParsing.Text

variable {t u gap : Text} {cells : List Text} {start length j : ℕ}

/-! ## Parts of a text -/

/-- The part of a text that begins at a place and has a length. -/
def slice (t : Text) (start length : ℕ) : Text := (t.drop start).take length

theorem slice_append (h : start = t.length) : slice (t ++ u) start length = u.take length := by
  rw [slice, h, List.drop_left]

/-- Where a column begins, if each column is followed by a gap. -/
def columnStart (gap : ℕ) (widths : List ℕ) (j : ℕ) : ℕ :=
  ((widths.take j).map fun width => width + gap).sum

/-! ## One line -/

theorem length_intercalate_gap (gap : Text) (cells : List Text) :
    (gap.intercalate cells).length =
      (cells.map List.length).sum + gap.length * (cells.length - 1) := by
  induction cells with
  | nil => rfl
  | cons cell cells ih =>
    cases cells with
    | nil => simp
    | cons next cells =>
      rw [List.intercalate_cons_cons, List.length_append, List.length_append, ih]
      simp only [List.map_cons, List.sum_cons, List.length_cons, Nat.add_sub_cancel]
      rw [Nat.mul_add_one]
      omega

theorem exists_intercalate_eq (gap : Text) (hj : j < cells.length) :
    ∃ before after, gap.intercalate cells = before ++ (cells[j] ++ after) ∧
      before.length = columnStart gap.length (cells.map List.length) j ∧
      (j + 1 < cells.length → gap <+: after) := by
  induction cells generalizing j with
  | nil => exact absurd hj (Nat.not_lt_zero j)
  | cons cell cells ih =>
    cases cells with
    | nil =>
      obtain rfl : j = 0 := Nat.lt_one_iff.1 hj
      exact ⟨[], [], by simp, rfl, fun h => absurd h (Nat.lt_irrefl 1)⟩
    | cons next cells =>
      rw [List.intercalate_cons_cons]
      cases j with
      | zero =>
        exact ⟨[], gap ++ gap.intercalate (next :: cells), by simp, rfl,
          fun _ => List.prefix_append _ _⟩
      | succ j =>
        obtain ⟨before, after, heq, hlength, hgap⟩ := ih (Nat.lt_of_succ_lt_succ hj)
        refine ⟨cell ++ gap ++ before, after, by rw [heq]; simp, ?_, fun h =>
          hgap (Nat.lt_of_succ_lt_succ h)⟩
        rw [List.length_append, List.length_append, hlength]
        rfl

/-- **A cell** is cut out of its line at the place where its column begins. -/
theorem slice_cell (gap : Text) (hj : j < cells.length) :
    slice (gap.intercalate cells) (columnStart gap.length (cells.map List.length) j)
      cells[j].length = cells[j] := by
  obtain ⟨before, after, heq, hlength, -⟩ := exists_intercalate_eq gap hj
  rw [heq, slice_append hlength.symm, List.take_left]

theorem slice_gap (gap : Text) (hj : j + 1 < cells.length) :
    slice (gap.intercalate cells)
      (columnStart gap.length (cells.map List.length) j + cells[j].length) gap.length = gap := by
  obtain ⟨before, after, heq, hlength, hgap⟩ :=
    exists_intercalate_eq gap (Nat.lt_of_succ_lt hj)
  obtain ⟨rest, rfl⟩ := hgap hj
  rw [heq, ← List.append_assoc, slice_append (by rw [List.length_append, hlength]), List.take_left]

/-! ## Columns -/

theorem isGreatest_foldl_max (ns : List ℕ) (hne : ns ≠ []) :
    IsGreatest {n | n ∈ ns} (ns.foldl max 0) := by
  obtain ⟨m, hm⟩ := Option.isSome_iff_exists.1 (List.isSome_max?_of_ne_nil hne)
  have hfold : ns.foldl max 0 = m := by rw [List.foldl_max, hm, Option.getD_some, Nat.zero_max]
  rw [hfold]
  exact List.max?_eq_some_iff.1 hm

/-- The lines have the cells in their columns, with only spaces before a cell, and there is a gap
between two columns. Every column is as wide as the longest of its cells. -/
structure Aligned (gap : Text) (cell : ℕ → ℕ → Text) (widths : List ℕ) (lines : List Text) :
    Prop where
  slice_cell : ∀ i (hi : i < lines.length), ∀ j (hj : j < widths.length),
    slice lines[i] (columnStart gap.length widths j) widths[j] =
      List.replicate (widths[j] - (cell i j).length) ' ' ++ cell i j
  slice_gap : ∀ line ∈ lines, ∀ j (hj : j + 1 < widths.length),
    slice line (columnStart gap.length widths j + widths[j]) gap.length = gap
  isGreatest_width : ∀ j (hj : j < widths.length),
    IsGreatest {n | ∃ i < lines.length, (cell i j).length = n} widths[j]

section

variable (cell : ℕ → ℕ → Text) (rows columns : ℕ)

/-- The length of the longest of the cells in a column. -/
def widthOf (j : ℕ) : ℕ := ((List.range rows).map fun i => (cell i j).length).foldl max 0

/-- The cells of a line, each as wide as its column. -/
def filledCells (i : ℕ) : List Text :=
  (List.range columns).map fun j => padLeft (widthOf cell rows j) (cell i j)

/-- A line of cells that are as wide as their columns. -/
def lineOf (gap : Text) (i : ℕ) : Text := gap.intercalate (filledCells cell rows columns i)

variable {cell rows columns} {i : ℕ}

theorem isGreatest_widthOf (hrows : 0 < rows) (j : ℕ) :
    IsGreatest {n | ∃ i < rows, (cell i j).length = n} (widthOf cell rows j) := by
  have hgreatest := isGreatest_foldl_max
    ((List.range rows).map fun i => (cell i j).length) (by simp [hrows.ne'])
  simp only [List.mem_map, List.mem_range] at hgreatest
  exact hgreatest

theorem length_filledCells : (filledCells cell rows columns i).length = columns := by
  rw [filledCells, List.length_map, List.length_range]

theorem getElem_filledCells (hj : j < (filledCells cell rows columns i).length) :
    (filledCells cell rows columns i)[j] = padLeft (widthOf cell rows j) (cell i j) := by
  simp only [filledCells, List.getElem_map, List.getElem_range]

theorem length_padLeft_widthOf (hi : i < rows) (j : ℕ) :
    (padLeft (widthOf cell rows j) (cell i j)).length = widthOf cell rows j := by
  rw [padLeft, List.length_leftpad]
  exact max_eq_left ((isGreatest_widthOf (Nat.zero_lt_of_lt hi) j).2 ⟨i, hi, rfl⟩)

theorem map_length_filledCells (hi : i < rows) :
    (filledCells cell rows columns i).map List.length =
      (List.range columns).map (widthOf cell rows) := by
  rw [filledCells, List.map_map]
  exact List.map_congr_left fun j _ => length_padLeft_widthOf hi j

theorem length_lineOf (gap : Text) (hi : i < rows) :
    (lineOf cell rows columns gap i).length =
      ((List.range columns).map (widthOf cell rows)).sum + gap.length * (columns - 1) := by
  rw [lineOf, length_intercalate_gap, map_length_filledCells hi, length_filledCells]

/-- **The lines are in columns**, if cells are filled up to the length of the longest one. -/
theorem aligned_lineOf (gap : Text) (hrows : 0 < rows) :
    Aligned gap cell ((List.range columns).map (widthOf cell rows))
      ((List.range rows).map (lineOf cell rows columns gap)) where
  slice_cell i hi j hj := by
    rw [List.length_map, List.length_range] at hi hj
    have hlength : j < (filledCells cell rows columns i).length := by rwa [length_filledCells]
    have hslice := Text.slice_cell gap hlength
    rw [map_length_filledCells hi, getElem_filledCells, length_padLeft_widthOf hi] at hslice
    simp only [List.getElem_map, List.getElem_range]
    exact hslice
  slice_gap line hline j hj := by
    obtain ⟨i, hi, rfl⟩ := List.mem_map.1 hline
    rw [List.mem_range] at hi
    rw [List.length_map, List.length_range] at hj
    have hlength : j + 1 < (filledCells cell rows columns i).length := by rwa [length_filledCells]
    have hslice := Text.slice_gap gap hlength
    rw [map_length_filledCells hi, getElem_filledCells, length_padLeft_widthOf hi] at hslice
    simp only [List.getElem_map, List.getElem_range]
    exact hslice
  isGreatest_width j hj := by
    simpa using isGreatest_widthOf hrows j

end

end PredictiveParsing.Text
