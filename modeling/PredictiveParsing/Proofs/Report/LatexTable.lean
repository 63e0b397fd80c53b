import Mathlib
import PredictiveParsing.Proofs.Latex.Escaping
import PredictiveParsing.Proofs.Report.TableViews

/-!
# The table in LaTeX

In LaTeX a table keeps its structure whatever characters its symbols are. The text has one rule;
behind it the breaks cut it into its rows, and the gaps cut each row into its cells.

* `Grid.latexHeading`, `Grid.latexBody`, `Grid.latexEnd`, `Grid.latex_eq`: the parts of a table;
* `splitOn_latex`, `splitOn_latexBody`, `splitOn_latexRow`: how they are cut;
* `NumberedGrammar.ShowsRow`: what the cells of a row say; **`latex_readable`**.
-/

namespace PredictiveParsing

open Latex

/-! ## The parts of a table -/

namespace Grid

variable (d : Grid)

/-- What begins a table: the environment, with a column for the names and one for each terminal. -/
def latexOpening : Text :=
  "\\[".toList ++ opening "array".toList ++
    braced ('c' :: d.columns.flatMap fun _ => "|l".toList) ++ ['\n']

/-- The names of the columns. -/
def latexHeadings : List Text := d.columns.map fun t => "\\text".toList ++ braced (escape t)

/-- What stands above the rule of a table. -/
def latexHeading : Text :=
  " & ".toList.intercalate (d.latexOpening :: d.latexHeadings) ++ "\\\\".toList

/-- The lines of a table below its rule. -/
def latexBody : Text := "\\\\\n".toList.intercalate (d.rows.map latexRow)

/-- What stands behind the lines of a table. -/
def latexEnd : Text := "\n\\end\x7barray\x7d\\]".toList

theorem latex_eq : d.latex =
    d.latexHeading ++ ("\\hline\n".toList ++ (d.latexBody ++ latexEnd)) := by
  have hbreak : "\\\\\\hline\n".toList = "\\\\".toList ++ "\\hline\n".toList := rfl
  have hend : latexEnd = ['\n'] ++ closing "array".toList ++ "\\]".toList := rfl
  simp only [latex, hbreak, latexHeading, latexOpening, latexHeadings, latexBody, hend,
    List.append_assoc]

variable {d}

theorem latexCell_some (left right : Text) : latexCell left (some right) =
    nameEpsilon (escape left) ++ nameEpsilon " \\rightarrow ".toList ++
      nameEpsilon (escape right) := by
  rw [latexCell, nameEpsilon_append, nameEpsilon_append]

theorem isEntry_latexCell (left : Text) (cell : Option Text) : IsEntry (latexCell left cell) := by
  cases cell with
  | none => exact isEntry_escape []
  | some right =>
    rw [latexCell_some]
    have harrow : IsEntry (nameEpsilon " \\rightarrow ".toList) := by decide
    have hleft := isEntry_nameEpsilon_escape left
    exact (hleft.append harrow).append (isEntry_nameEpsilon_escape right)

theorem isEntry_of_mem_cells {row : Text × List (Option Text)} :
    ∀ cell ∈ escape row.1 :: row.2.map (latexCell row.1), IsEntry cell := by
  rw [List.forall_mem_cons]
  refine ⟨isEntry_escape row.1, fun cell hcell => ?_⟩
  obtain ⟨right, -, rfl⟩ := List.mem_map.1 hcell
  exact isEntry_latexCell row.1 right

theorem noBreak_latexRow (row : Text × List (Option Text)) : NoBreak (latexRow row) :=
  NoBreak.intercalate (by decide) fun cell hcell => (isEntry_of_mem_cells cell hcell).toNoBreak

theorem noBreak_latexOpening : NoBreak d.latexOpening := by
  have hrules : NoBreak (d.columns.flatMap fun _ => "|l".toList) := by
    refine NoBreak.flatten fun rule hrule => ?_
    obtain ⟨t, -, rfl⟩ := List.mem_map.1 hrule
    decide
  have hopening : NoBreak ("\\[".toList ++ opening "array".toList) := by decide
  have hc : NoBreak ['c'] := by decide
  exact (hopening.append (hc.append hrules).braced).append (by decide)

theorem avoids_latexHeading : Avoids '\\' 'h' d.latexHeading := by
  have hline : NoBreak (" & ".toList.intercalate (d.latexOpening :: d.latexHeadings)) := by
    refine NoBreak.intercalate (by decide) (List.forall_mem_cons.2 ⟨noBreak_latexOpening, ?_⟩)
    intro name hname
    obtain ⟨t, -, rfl⟩ := List.mem_map.1 hname
    have htext : NoBreak "\\text".toList := by decide
    exact htext.append (isEntry_escape t).toNoBreak.braced
  exact hline.rules.append (by decide) fun hlast => absurd hlast hline.getLast?_ne

theorem avoids_intercalate_break {rows : List Text} (h : ∀ row ∈ rows, NoBreak row) :
    Avoids '\\' 'h' ("\\\\\n".toList.intercalate rows ++ latexEnd) := by
  induction rows with
  | nil => decide
  | cons row rows ih =>
    rw [List.forall_mem_cons] at h
    cases rows with
    | nil =>
      rw [List.intercalate_singleton]
      exact h.1.rules.append (by decide) fun hlast => absurd hlast h.1.getLast?_ne
    | cons next rows =>
      have hbreak : Avoids '\\' 'h' "\\\\\n".toList := by decide
      rw [List.intercalate_cons_cons, List.append_assoc, List.append_assoc]
      refine h.1.rules.append (hbreak.append (ih h.2) fun hlast => ?_) fun hlast =>
        absurd hlast h.1.getLast?_ne
      exact absurd hlast (by decide)

/-! ## Cutting a table -/

/-- **A table has one rule**, behind its heading. -/
theorem splitOn_latex (d : Grid) :
    Text.splitOn "\\hline\n".toList d.latex = [d.latexHeading, d.latexBody ++ latexEnd] := by
  have hrows : ∀ row ∈ d.rows.map latexRow, NoBreak row := by
    intro row hrow
    obtain ⟨row, -, rfl⟩ := List.mem_map.1 hrow
    exact noBreak_latexRow row
  have hrest := unbroken_rule (avoids_intercalate_break hrows)
  rw [latex_eq, Text.splitOn_append_of_unbroken (by decide) (unbroken_rule avoids_latexHeading),
    latexBody, Text.splitOn_of_not_infix (hrest.not_infix (by decide))]

theorem splitOn_latexBody (h : d.rows ≠ []) :
    Text.splitOn "\\\\\n".toList d.latexBody = d.rows.map latexRow := by
  refine Text.splitOn_intercalate (by decide) (by simpa using h) fun row hrow => ?_
  obtain ⟨row, -, rfl⟩ := List.mem_map.1 hrow
  exact (noBreak_latexRow row).unbroken_break

theorem splitOn_latexRow (row : Text × List (Option Text)) :
    Text.splitOn " & ".toList (latexRow row) = escape row.1 :: row.2.map (latexCell row.1) :=
  Text.splitOn_intercalate (by decide) (List.cons_ne_nil _ _) fun cell hcell =>
    (isEntry_of_mem_cells cell hcell).unbroken_gap

theorem latexCell_eq_nil_iff {left : Text} {cell : Option Text} :
    latexCell left cell = [] ↔ cell = none := by
  cases cell with
  | none => exact iff_of_true rfl rfl
  | some right =>
    rw [latexCell_some]
    refine iff_of_false (fun hnil => ?_) (Option.some_ne_none right)
    have harrow : nameEpsilon " \\rightarrow ".toList = [] :=
      (List.append_eq_nil_iff.1 (List.append_eq_nil_iff.1 hnil).1).2
    exact absurd harrow (by decide)

theorem latexCell_inj {left right right' : Text}
    (h : latexCell left (some right) = latexCell left (some right')) : right = right' := by
  rw [latexCell_some, latexCell_some] at h
  exact nameEpsilon_escape_injective (List.append_cancel_left h)

end Grid

/-! ## The table of a grammar -/

namespace NumberedGrammar

/-- The cells of a row of a table, one for each terminal, say what the table holds for a
nonterminal: a cell is empty iff the table has no production for it, and cells are the same iff
their productions are. -/
structure ShowsRow (g : NumberedGrammar) (T : Table) (A : ℕ) (cells : List Text) : Prop where
  length_eq : cells.length = g.terminals.length
  eq_nil_iff : ∀ j (hj : j < cells.length),
    cells[j] = [] ↔ T.get? A (g.nonterminals.length + j) = none
  eq_iff : ∀ j (hj : j < cells.length) k (hk : k < cells.length) a b,
    T.get? A (g.nonterminals.length + j) = some a →
    T.get? A (g.nonterminals.length + k) = some b →
      (cells[j] = cells[k] ↔ g.body A a = g.body A b)

variable {g : NumberedGrammar} {T : Table} {F : Facts} {A : ℕ}

theorem showsRow_latexCell
    (hbody : ∀ t i, T.get? A t = some i → g.body A i ∈ g.bodies A)
    (hinj : ∀ body ∈ g.bodies A, ∀ body' ∈ g.bodies A,
      g.bodyText body = g.bodyText body' → body = body') :
    g.ShowsRow T A
      ((g.terminalRange.map (g.cellText? T A)).map (Grid.latexCell (g.nameOf A))) := by
  have hcell : ∀ j (hj : j < ((g.terminalRange.map (g.cellText? T A)).map
      (Grid.latexCell (g.nameOf A))).length),
      ((g.terminalRange.map (g.cellText? T A)).map (Grid.latexCell (g.nameOf A)))[j] =
        Grid.latexCell (g.nameOf A) (g.cellText? T A (g.nonterminals.length + j)) := by
    intro j hj
    simp only [map_terminalRange, List.map_map, List.getElem_map, List.getElem_range,
      Function.comp_apply]
  refine ⟨by simp [terminalRange], fun j hj => ?_, fun j hj k hk a b ha hb => ?_⟩
  · rw [hcell, Grid.latexCell_eq_nil_iff, cellText?, Option.map_eq_none_iff]
  · rw [hcell, hcell, cellText?, cellText?, ha, hb, Option.map_some, Option.map_some]
    constructor
    · intro h
      exact hinj _ (hbody _ a ha) _ (hbody _ b hb) (Grid.latexCell_inj h)
    · intro h
      rw [h]

theorem rows_grid : (g.grid T).rows = (List.range g.nonterminals.length).map fun A =>
    (g.nameOf A, g.terminalRange.map (g.cellText? T A)) := by
  rw [grid, map_zipIdx_nonterminals]

end NumberedGrammar

namespace Grammar

variable {g : Grammar} {n : NumberedGrammar} {F : Facts} {T : Table}

theorem nameOf_ne_nil {s : Char} (hs : s ∈ g.nonterminals) {A : ℕ}
    (hA : A < (g.number s).nonterminals.length) : (g.number s).nameOf A ≠ [] := by
  have hsize := NumberedGrammar.lt_size_of_lt hA
  have hlength := length_of_mem_names hs (List.getElem_mem hsize)
  intro hnil
  rw [NumberedGrammar.nameOf, List.getD_eq_getElem _ _ hsize] at hnil
  rw [hnil] at hlength
  simp at hlength

/-- **The table in LaTeX can be read.** It has one rule; the breaks behind the rule cut it into a
row for each nonterminal, and the gaps cut a row into its name and a cell for each terminal, which
say what the table holds. -/
theorem latex_readable (hn : g.number? = some n) (hT : n.table F = .ok T) :
    ∃ heading body rows,
      Text.splitOn "\\hline\n".toList (n.grid T).latex =
        [heading, body ++ "\n\\end\x7barray\x7d\\]".toList] ∧
      Text.splitOn "\\\\\n".toList body = rows ∧ rows.length = n.nonterminals.length ∧
      ∀ A (hA : A < rows.length), ∃ cells,
        Text.splitOn " & ".toList rows[A] = Latex.escape (n.nameOf A) :: cells ∧
        Latex.escape (n.nameOf A) ≠ [] ∧ n.ShowsRow T A cells := by
  obtain ⟨s, hs, rfl⟩ := Option.map_eq_some_iff.1 hn
  have hmem := start_mem_nonterminals hs
  have hlength : ((g.number s).grid T).rows.length = (g.number s).nonterminals.length := by
    rw [NumberedGrammar.rows_grid, List.length_map, List.length_range]
  have hrows : ((g.number s).grid T).rows ≠ [] := by
    rw [← List.length_pos_iff, hlength, length_nonterminals_number]
    exact Nat.succ_pos _
  refine ⟨_, _, _, Grid.splitOn_latex _, Grid.splitOn_latexBody hrows, ?_, fun A hA => ?_⟩
  · rw [List.length_map, hlength]
  · rw [List.length_map, hlength] at hA
    have hrow : (((g.number s).grid T).rows.map Grid.latexRow)[A]? =
        some (Grid.latexRow ((g.number s).nameOf A,
          (g.number s).terminalRange.map ((g.number s).cellText? T A))) := by
      simp [NumberedGrammar.rows_grid, hA]
    rw [(List.getElem_eq_iff _).2 hrow, Grid.splitOn_latexRow]
    exact ⟨_, rfl, Latex.escape_ne_nil (nameOf_ne_nil hmem hA),
      NumberedGrammar.showsRow_latexCell (fun t i h => (NumberedGrammar.body_of_get? hT h).1)
        fun body hbody body' hbody' => bodyText_inj hmem hbody hbody'⟩

/-- Productions that look like a gap, like a break, and like a dash. -/
def separators : Grammar where
  rules := [.ofText ⟨'&', by decide, by decide⟩ [' ', '&', ' '],
    .ofText ⟨'&', by decide, by decide⟩ ['\\', '\\', '\n'],
    .ofText ⟨'&', by decide, by decide⟩ ['-', '-']]

/-- There are two rows with a name and five cells each. -/
theorem latex_readable_separators : ∃ p, separators.compile = .ok p ∧ ∃ heading body rows,
    Text.splitOn "\\hline\n".toList p.grid.latex =
      [heading, body ++ "\n\\end\x7barray\x7d\\]".toList] ∧
    Text.splitOn "\\\\\n".toList body = rows ∧ rows.length = 2 ∧
    ∀ row ∈ rows, (Text.splitOn " & ".toList row).length = 6 := by
  obtain ⟨p, hp⟩ := exists_compile (g := separators) (by decide +kernel)
  obtain ⟨s, hs, hgrammar, hcompiled⟩ := compile_eq_ok hp
  have hn : separators.number? = some p.grammar := hgrammar ▸ number?_eq_some hs
  obtain ⟨heading, body, rows, hrule, hbreaks, hlength, hcells⟩ :=
    latex_readable hn hcompiled.table_eq
  have hsize : separators.compile.toOption.map (fun p =>
      (p.grammar.nonterminals.length, p.grammar.terminals.length)) = some (2, 5) := by
    decide +kernel
  rw [hp] at hsize
  obtain ⟨hrows, hcolumns⟩ := Prod.mk.inj (Option.some.inj hsize)
  refine ⟨p, hp, heading, body, rows, hrule, hbreaks, hlength.trans hrows, fun row hrow => ?_⟩
  obtain ⟨A, hA, rfl⟩ := List.getElem_of_mem hrow
  obtain ⟨cells, hcut, -, hshows⟩ := hcells A hA
  rw [hcut, List.length_cons, hshows.length_eq, hcolumns]

end Grammar

end PredictiveParsing
