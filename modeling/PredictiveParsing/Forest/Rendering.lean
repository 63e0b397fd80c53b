import PredictiveParsing.Forest.Walk
import PredictiveParsing.Json
import PredictiveParsing.Latex

/-!
# Texts of trees

The tree below the root of a forest in four forms.

* `Forest.text`: `C(A(0), B(1))`;
* `Forest.plain`: one node per line, indented under its parent;
* `Forest.json`: nested objects with a label and children;
* `Forest.latex`: nested brackets after `\Tree`.
-/

namespace PredictiveParsing.Forest

variable (f : Forest)

/-- What a visit writes in `text`. -/
def textAt : Visit → Text
  | .enter i => f.label i :: if f.isLeaf i then [] else ['(']
  | .between => [',', ' ']
  | .leave i => if f.isLeaf i then [] else [')']

/-- A label, then the children in parentheses if there are any. -/
def text : Text := f.visits.flatMap f.textAt

/-- One node per line, two spaces in for each level. -/
def plain : Text :=
  ['\n'].intercalate (f.outline.map fun (i, depth) => .replicate (2 * depth) ' ' ++ [f.label i])

/-- What a visit writes in `json`. -/
def jsonAt : Visit → Text
  | .enter i => "\x7b\"label\":".toList ++ Json.quote [f.label i] ++ ",\"children\":[".toList
  | .between => [',']
  | .leave _ => [']', '}']

/-- An object with the label and the array of the children. -/
def json : Text := f.visits.flatMap f.jsonAt

/-- A label as LaTeX shows it. -/
def latexLabel (label : Char) : Text :=
  if label = epsilon then "$\\epsilon$".toList else Latex.escape [label]

/-- What a visit writes in `latex`. -/
def latexAt : Visit → Text
  | .enter i =>
    if f.isLeaf i then latexLabel (f.label i) else "[.".toList ++ latexLabel (f.label i) ++ [' ']
  | .between => [' ']
  | .leave i => if f.isLeaf i then [] else [' ', ']']

/-- Brackets around a label and its children; a leaf stands without brackets. -/
def latex : Text := "\\Tree ".toList ++ f.visits.flatMap f.latexAt

end PredictiveParsing.Forest
