import PredictiveParsing.Forest.Rendering
import PredictiveParsing.Grammar.Reader
import PredictiveParsing.Parser.Run
import PredictiveParsing.Report.Table

/-!
# JSON answers

The table of a grammar text, or the tree of an input, as one JSON text. A failure is an object
whose only field is `error`.

* `Answer.error`: the object for a failure; `Answer.tableValue`: the object for a table;
* `Answer.table`, `Answer.tree`.
-/

namespace PredictiveParsing

namespace Parser

/-- The filled cells of a parser's table by name. -/
def transitions (p : Parser) : List (Text × List (Text × Text)) := p.grammar.transitions p.table

/-- A parser's table laid out. -/
def grid (p : Parser) : Grid := p.grammar.grid p.table

end Parser

/-- The parser of a grammar text. -/
def Parser.ofText (text : Text) : Except Error Parser := (Grammar.read text).bind Grammar.compile

namespace Answer

/-- The object for a failure. -/
def error (e : Error) : Text := (Json.object [("error".toList, .string e.message)]).render

/-- The filled cells of a parser's table as an object of objects. -/
def tableValue (p : Parser) : Json :=
  .ofMap (p.transitions.map fun (name, row) =>
    (name, .ofMap (row.map fun (t, text) => (t, .string text))))

/-- The table of a grammar text. -/
def table (grammar : Text) : Text :=
  match Parser.ofText grammar with
  | .ok p => (tableValue p).render
  | .error e => error e

/-- The tree of an input under a grammar text. -/
def tree (grammar input : Text) : Text :=
  match (Parser.ofText grammar).bind (·.parse input) with
  | .ok f => f.json
  | .error e => error e

end Answer

end PredictiveParsing
