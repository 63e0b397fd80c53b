import PredictiveParsing.Json
import PredictiveParsing.Latex
import PredictiveParsing.Table

/-!
# Reports of tables

A parsing table by name, and laid out with a row for each nonterminal and a column for each
terminal.

* `NumberedGrammar.cellText?`: the production in a cell;
* `NumberedGrammar.transitions`, `Report.tableJson`: the filled cells by name;
* `Grid`, `NumberedGrammar.grid`: the table laid out;
* `Grid.plain`, `Grid.latex`: its texts.
-/

namespace PredictiveParsing

namespace NumberedGrammar

variable (g : NumberedGrammar) (T : Table)

/-- The terminals. -/
def terminalRange : List Nat := List.range' g.nonterminals.length g.terminals.length

/-- The text of the production in a cell. -/
def cellText? (A t : Nat) : Option Text := (T.get? A t).map fun i => g.bodyText (g.body A i)

/-- Every nonterminal with its filled cells, each a terminal and a production. Nonterminals and
terminals are in the order of their names. -/
def transitions : List (Text × List (Text × Text)) :=
  sortOn (·.1) <| g.nonterminals.zipIdx.map fun (name, A) =>
    (name, sortOn (·.1) <| g.terminalRange.filterMap fun t =>
      (g.cellText? T A t).map fun text => (g.nameOf t, text))

end NumberedGrammar

/-- The filled cells as an object of objects. -/
def Report.tableJson (transitions : List (Text × List (Text × Text))) : Text :=
  (Json.object (transitions.map fun (name, row) =>
    (name, .object (row.map fun (t, text) => (t, .string text))))).render

/-- A table laid out: the names of the columns, and the rows with their names. -/
structure Grid where
  columns : List Text
  rows : List (Text × List (Option Text))
deriving DecidableEq

/-- The table of a grammar laid out, with a column for every terminal. -/
def NumberedGrammar.grid (g : NumberedGrammar) (T : Table) : Grid where
  columns := g.terminals
  rows := g.nonterminals.zipIdx.map fun (name, A) => (name, g.terminalRange.map (g.cellText? T A))

namespace Grid

variable (d : Grid)

/-- The text of a cell in plain text: the production with its left side. -/
def plainCell (left : Text) : Option Text → Text
  | some right => left ++ " -> ".toList ++ right
  | none => []

/-- The heading and the rows, cell by cell. -/
def plainCells : List (List Text) :=
  ([] :: d.columns) :: d.rows.map fun (left, cells) => left :: cells.map (plainCell left)

/-- The length of the longest text in a column. -/
def columnWidth (lines : List (List Text)) (j : Nat) : Nat :=
  (lines.map fun line => (line.getD j []).length).foldl max 0

/-- The heading and the rows, aligned to the right in columns. -/
def plain : Text :=
  let widths := (List.range (d.columns.length + 1)).map (columnWidth d.plainCells)
  ['\n'].intercalate (d.plainCells.map fun line =>
    " | ".toList.intercalate (widths.zipWith Text.padLeft line))

/-- The text of a cell in LaTeX. -/
def latexCell (left : Text) : Option Text → Text
  | some right =>
    Latex.nameEpsilon (Latex.escape left ++ " \\rightarrow ".toList ++ Latex.escape right)
  | none => []

/-- A row in LaTeX. -/
def latexRow (row : Text × List (Option Text)) : Text :=
  " & ".toList.intercalate (Latex.escape row.1 :: row.2.map (latexCell row.1))

/-- The table as an array, with a rule below the heading. -/
def latex : Text :=
  let rules := d.columns.flatMap fun _ => "|l".toList
  let opening :=
    "\\[".toList ++ Latex.opening "array".toList ++ Latex.braced ('c' :: rules) ++ ['\n']
  let headings := d.columns.map fun t => "\\text".toList ++ Latex.braced (Latex.escape t)
  " & ".toList.intercalate (opening :: headings) ++ "\\\\\\hline\n".toList ++
    "\\\\\n".toList.intercalate (d.rows.map latexRow) ++ ['\n'] ++
    Latex.closing "array".toList ++ "\\]".toList

end Grid

end PredictiveParsing
