import PredictiveParsing.Text.Basic

/-!
# LaTeX

Text in the form in which LaTeX sets it as it stands.

* `Latex.escape`: the escaped form of a text, character by character but for hyphens;
* `Latex.nameEpsilon`: the command `\epsilon` in place of the letter;
* `Latex.braced`, `Latex.opening`, `Latex.closing`: groups, and the two ends of an environment.
-/

namespace PredictiveParsing.Latex

/-- A group in braces. -/
def braced (t : Text) : Text := '{' :: t ++ ['}']

/-- The command that opens an environment. -/
def opening (environment : Text) : Text := "\\begin".toList ++ braced environment

/-- The command that closes an environment. -/
def closing (environment : Text) : Text := "\\end".toList ++ braced environment

/-- The escaped form of a character, wherever it stands. -/
def escapeChar (c : Char) : Text :=
  match c with
  | '&' | '%' | '$' | '#' | '_' | '{' | '}' => ['\\', c]
  | '[' | ']' => braced [c]
  | '~' => "\\textasciitilde".toList ++ braced []
  | '^' => "\\textasciicircum".toList ++ braced []
  | '<' => "\\textless".toList ++ braced []
  | '>' => "\\textgreater".toList ++ braced []
  | '!' => '!' :: braced []
  | '\\' => "\\textbackslash".toList ++ braced []
  | _ => [c]

/-- The text with every special character escaped. Between two hyphens stands an empty group, so
that they are not set as a dash. -/
def escape : Text → Text
  | [] => []
  | '-' :: '-' :: t => '-' :: braced [] ++ escape ('-' :: t)
  | c :: t => escapeChar c ++ escape t

/-- Writes `\epsilon` for each letter `ε`. -/
def nameEpsilon (t : Text) : Text :=
  t.flatMap fun c => if c = 'ε' then "\\epsilon".toList else [c]

end PredictiveParsing.Latex
