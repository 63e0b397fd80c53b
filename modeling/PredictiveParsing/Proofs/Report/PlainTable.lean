import Mathlib
import PredictiveParsing.Proofs.Report.Rows
import PredictiveParsing.Proofs.Text.Columns

/-!
# The table in plain text

In plain text a table is a rectangle. Its lines are equally long and have their bars below each
other, and no cell is cut, whatever the symbols are.

* `NumberedGrammar.plainText`: what is shown in a line and a column;
* `plainCells_grid`, `plain_grid`: the lines of a table, cell by cell;
* **`plain_aligned`**: they are in columns.
-/

namespace PredictiveParsing.NumberedGrammar

variable (g : NumberedGrammar) (T : Table)

/-- What is shown in a line and a column, counted from zero: the names of the terminals in the first
line, the names of the nonterminals in the first column, and in the place of a nonterminal and a
terminal the production of the cell, behind its left side: the names of its symbols in a row, or `ε`
if it has none. -/
def plainText : ℕ → ℕ → Text
  | 0, 0 => []
  | 0, j + 1 => g.nameOf (g.nonterminals.length + j)
  | A + 1, 0 => g.nameOf A
  | A + 1, j + 1 =>
    match T.get? A (g.nonterminals.length + j) with
    | some i =>
      let body := g.body A i
      g.nameOf A ++ " -> ".toList ++ if body = [] then ['ε'] else (body.map g.nameOf).flatten
    | none => []

theorem plainCell_cellText? (A j : ℕ) :
    Grid.plainCell (g.nameOf A) (g.cellText? T A (g.nonterminals.length + j)) =
      g.plainText T (A + 1) (j + 1) := by
  rw [plainText, cellText?]
  cases T.get? A (g.nonterminals.length + j) with
  | none => rfl
  | some i =>
    simp only [← List.flatMap_def]
    rfl

theorem plainCells_grid : (g.grid T).plainCells =
    (List.range (g.nonterminals.length + 1)).map fun i =>
      (List.range (g.terminals.length + 1)).map (g.plainText T i) := by
  have hheading : g.terminals =
      (List.range g.terminals.length).map fun j => g.nameOf (g.nonterminals.length + j) := by
    rw [← map_terminalRange, map_nameOf_terminalRange]
  rw [Grid.plainCells, grid, map_zipIdx_nonterminals, List.map_map]
  simp only [List.range_succ_eq_map, List.map_cons, List.map_map, Function.comp_def, plainText]
  rw [← hheading]
  congr 1
  refine List.map_congr_left fun A _ => ?_
  rw [map_terminalRange]
  exact congrArg (List.cons _) (List.map_congr_left fun j _ => g.plainCell_cellText? T A _)

theorem columnWidth_plainCells {j : ℕ} (hj : j < g.terminals.length + 1) :
    Grid.columnWidth (g.grid T).plainCells j =
      Text.widthOf (g.plainText T) (g.nonterminals.length + 1) j := by
  rw [Grid.columnWidth, Text.widthOf, plainCells_grid, List.map_map]
  congr 1
  refine List.map_congr_left fun i _ => ?_
  rw [Function.comp_apply, List.getD_eq_getElem _ _ (by simpa using hj)]
  simp

theorem plain_grid : (g.grid T).plain = ['\n'].intercalate
    ((List.range (g.nonterminals.length + 1)).map
      (Text.lineOf (g.plainText T) (g.nonterminals.length + 1) (g.terminals.length + 1)
        " | ".toList)) := by
  have hwidths : (List.range (g.terminals.length + 1)).map
      (Grid.columnWidth (g.grid T).plainCells) = (List.range (g.terminals.length + 1)).map
        (Text.widthOf (g.plainText T) (g.nonterminals.length + 1)) :=
    List.map_congr_left fun j hj => g.columnWidth_plainCells T (List.mem_range.1 hj)
  have hcolumns : (g.grid T).columns.length = g.terminals.length := rfl
  simp only [Grid.plain, hcolumns, hwidths]
  rw [plainCells_grid, List.map_map]
  congr 1
  refine List.map_congr_left fun i _ => ?_
  rw [Function.comp_apply, List.zipWith_map, List.zipWith_self]
  rfl

/-- **The table in plain text is a rectangle.** It has a line for the heading and one for every
nonterminal, and each line has a column for the names and one for every terminal. The lines are
equally long, and their cells and bars are in columns. -/
theorem plain_aligned : ∃ (widths : List ℕ) (lines : List Text),
    (g.grid T).plain = ['\n'].intercalate lines ∧
    lines.length = g.nonterminals.length + 1 ∧ widths.length = g.terminals.length + 1 ∧
    (∀ line ∈ lines, line.length = widths.sum + 3 * g.terminals.length) ∧
    Text.Aligned " | ".toList (g.plainText T) widths lines := by
  refine ⟨_, _, g.plain_grid T, by simp, ?_, ?_, Text.aligned_lineOf _ (Nat.succ_pos _)⟩
  · rw [List.length_map, List.length_range]
  · intro line hline
    obtain ⟨i, hi, rfl⟩ := List.mem_map.1 hline
    exact Text.length_lineOf _ (List.mem_range.1 hi)

end PredictiveParsing.NumberedGrammar
