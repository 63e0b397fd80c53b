import PredictiveParsing.Facts.Basic
import PredictiveParsing.Json
import PredictiveParsing.Latex

/-!
# Reports of facts

What is known about each nonterminal as plain text, as LaTeX and as JSON. Sets are shown in the
order of names.

* `FactRow`: a nonterminal and the facts about it, by name;
* `FactRow.plain`, `FactRow.latex`, `FactRow.json`: one row;
* `NumberedGrammar.factRows`: the rows of a grammar under some facts;
* `Report.factsPlain`, `Report.factsLatex`, `Report.factsJson`: all rows.
-/

namespace PredictiveParsing

/-- A nonterminal and what is known about it. -/
structure FactRow where
  name : Text
  nullable : Bool
  first : List Text
  follow : List Text
deriving DecidableEq

namespace FactRow

variable (r : FactRow)

/-- The row with bars between its cells and commas between names. -/
def plain : Text :=
  " | ".toList.intercalate
    [r.name, Text.ofBool r.nullable, ", ".toList.intercalate r.first,
      ", ".toList.intercalate r.follow]

/-- The row as a row of a table. -/
def latex : Text :=
  let set (names : List Text) : Text := "\\ ".toList.intercalate (names.map Latex.escape)
  " & ".toList.intercalate
    [Latex.escape r.name, Text.ofBool r.nullable, set r.first, set r.follow]

/-- The row as an object. -/
def json : Json :=
  .object
    [("name".toList, .string r.name), ("nullable".toList, .bool r.nullable),
      ("first".toList, .strings r.first), ("follow".toList, .strings r.follow)]

end FactRow

/-- A row for every nonterminal. -/
def NumberedGrammar.factRows (g : NumberedGrammar) (F : Facts) : List FactRow :=
  g.nonterminals.zipIdx.map fun (name, A) =>
    { name
      nullable := F.isNullable A
      first := g.sortedNames (F.firstOf A).toList
      follow := g.sortedNames (F.followOf A).toList }

namespace Report

variable (rows : List FactRow)

/-- The rows below each other. -/
def factsPlain : Text := ['\n'].intercalate (rows.map FactRow.plain)

/-- The rows as a table under a heading. -/
def factsLatex : Text :=
  Latex.opening "tabular".toList ++ Latex.braced "c|c|c|c".toList ++
    "\nSymbol & Nullable & First & Follow\\\\\\hline\n".toList ++
    "\\\\\n ".toList.intercalate (rows.map FactRow.latex) ++ "\\\\\n".toList ++
    Latex.closing "tabular".toList

/-- The rows as a JSON text. -/
def factsJson : Text := (Json.object [("data".toList, .array (rows.map FactRow.json))]).render

end Report

end PredictiveParsing
