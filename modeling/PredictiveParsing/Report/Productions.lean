import PredictiveParsing.Json
import PredictiveParsing.Latex
import PredictiveParsing.NumberedGrammar

/-!
# Reports of productions

The productions of each nonterminal as plain text, as LaTeX and as JSON.

* `RuleGroup`: a left side and the texts of its productions;
* `RuleGroup.plain`, `RuleGroup.latex`, `RuleGroup.json`: one group;
* `NumberedGrammar.ruleGroups`: the groups of a grammar;
* `Report.productionsPlain`, `Report.productionsLatex`, `Report.productionsJson`: all groups.
-/

namespace PredictiveParsing

/-- A left side and the texts of its productions. -/
structure RuleGroup where
  left : Text
  rights : List Text
deriving DecidableEq

namespace RuleGroup

/-- What stands between two productions: a bar, which on a line of its own stands under the end of
the arrow. -/
def bar (multiline : Bool) (width : Nat) : Text :=
  if multiline then '\n' :: Text.padLeft width [] ++ "  | ".toList else " | ".toList

/-- The left side in a column of the given width, an arrow, and the productions with bars between
them. Nothing is shown of a left side without productions. -/
def plain (r : RuleGroup) (width : Nat) (multiline : Bool) : Text :=
  if r.rights = [] then []
  else
    Text.padLeft width r.left ++ " -> ".toList ++ (bar multiline width).intercalate r.rights

/-- The group in mathematical mode, with the columns of an array if it is to be `aligned`. -/
def latex (r : RuleGroup) (aligned : Bool) : Text :=
  if r.rights = [] then []
  else
    let arrow := if aligned then " & \\rightarrow &".toList else " \\rightarrow ".toList
    Latex.nameEpsilon
      (Latex.escape r.left ++ arrow ++ " \\mid ".toList.intercalate (r.rights.map Latex.escape))

/-- The group as an object. -/
def json (r : RuleGroup) : Json :=
  .object [("left".toList, .string r.left), ("rights".toList, .strings r.rights)]

end RuleGroup

/-- The productions of every nonterminal. -/
def NumberedGrammar.ruleGroups (g : NumberedGrammar) : List RuleGroup :=
  g.nonterminals.zipWith (fun name bodies => ⟨name, bodies.map g.bodyText⟩) g.productions

namespace Report

variable (groups : List RuleGroup)

/-- The groups below each other, with their arrows in one column. -/
def productionsPlain : Text :=
  let width := (groups.map (·.left.length)).foldl max 0
  ['\n'].intercalate (groups.map fun r => r.plain width true)

/-- The groups as the rows of an array. -/
def productionsLatex : Text :=
  let opening := "\\[".toList ++ Latex.opening "array".toList ++ Latex.braced "cll".toList
  let closing := Latex.closing "array".toList ++ "\\]".toList
  "\\\\\n".toList.intercalate (opening :: groups.map (·.latex true) ++ [closing])

/-- The groups as a JSON text. -/
def productionsJson : Text :=
  (Json.object [("productions".toList, .array (groups.map RuleGroup.json))]).render

end Report

end PredictiveParsing
