import PredictiveParsing.Answer
import PredictiveParsing.Report.Facts
import PredictiveParsing.Report.Productions

/-!
# The command line

A call names the outputs that it wants, then options, then at most one grammar file; without a file
the grammar is read from standard input. Anything else is answered by a help text.

* `Output`, `Format`, `Options`, `Options.ofArgs?`: what a call asks for;
* `SourceFault`, `decode`: why a grammar text cannot be read;
* `Outcome`: exit code and printed texts;
* `Options.answer`: the outcome for a grammar text;
* **`respond`**: the outcome of a call, given how a grammar text is fetched.
-/

namespace PredictiveParsing.CommandLine

/-! ## Arguments -/

/-- What can be printed about a grammar. -/
inductive Output where
  | productions
  | facts
  | table
  | trees
deriving DecidableEq

/-- The form in which it is printed. -/
inductive Format where
  | plain
  | latex
  | json
deriving DecidableEq

/-- The output that a word asks for. -/
def Output.ofWord? (word : Text) : Option Output :=
  if word = "prod".toList then some .productions
  else if word = "nff".toList then some .facts
  else if word = "ll1".toList then some .table
  else if word = "tree".toList then some .trees
  else none

/-- What a call asks for. -/
structure Options where
  outputs : List Output
  format : Format
  inputs : List Text
  file? : Option Text
deriving DecidableEq

/-- The outputs that the arguments start with, and the other arguments. -/
def takeOutputs : List Text → List Output × List Text
  | [] => ([], [])
  | arg :: args =>
    match Output.ofWord? arg with
    | some output =>
      let (outputs, rest) := takeOutputs args
      (output :: outputs, rest)
    | none => ([], arg :: args)

namespace Options

/-- Reads options and the name of a file. There is no result if help is asked for, if the last
option lacks its input, or if something stands after the file. -/
def read (o : Options) : List Text → Option Options
  | [] => some o
  | arg :: args =>
    if arg = "-l".toList then read { o with format := .latex } args
    else if arg = "-j".toList then read { o with format := .json } args
    else if arg = "-i".toList then
      match args with
      | input :: args => read { o with inputs := o.inputs ++ [input] } args
      | [] => none
    else if arg = "-h".toList ∨ arg = "--help".toList then none
    else if args = [] then some { o with file? := some arg }
    else none

/-- What the arguments ask for; no result stands for the help text. -/
def ofArgs? (args : List Text) : Option Options :=
  let (outputs, rest) := takeOutputs args
  if outputs = [] then none else read ⟨outputs, .plain, [], none⟩ rest

end Options

/-! ## Grammar texts from outside -/

/-- Why a grammar text cannot be read. -/
inductive SourceFault where
  | missing
  | directory
  | notUtf8
  | other (reason : Text)
deriving DecidableEq

/-- The wording of a fault. -/
def SourceFault.message : SourceFault → Text
  | missing => "No such file or directory (os error 2)".toList
  | directory => "Is a directory (os error 21)".toList
  | notUtf8 => "stream did not contain valid UTF-8".toList
  | other reason => reason

/-- The text that some bytes encode. -/
def decode (bytes : ByteArray) : Except SourceFault Text :=
  match String.fromUTF8? bytes with
  | some s => .ok s.toList
  | none => .error .notUtf8

/-! ## Outcomes -/

/-- What a call leaves behind: an exit code, and what it printed as output and as errors. -/
structure Outcome where
  code : Nat
  stdout : Text
  stderr : Text
deriving DecidableEq

namespace Outcome

/-- The outcome of a call that fails without output. -/
def failure (message : Text) : Outcome := ⟨1, [], "error: ".toList ++ message ++ ['\n']⟩

/-- Prints texts, each on a line of its own, up to the first error. -/
def ofItems : List (Except Error Text) → Outcome
  | [] => ⟨0, [], []⟩
  | .ok t :: items =>
    let rest := ofItems items
    { rest with stdout := t ++ '\n' :: rest.stdout }
  | .error e :: _ => failure e.message

/-- The help text. -/
def help : Outcome where
  code := 0
  stdout := [
    "Usage: ll1-table-parser outputs [options] [grammar file]\n",
    "outputs:\n",
    "  prod: Productions\n",
    "  nff: Nullable first and follow\n",
    "  ll1: LL(1) parsing table\n",
    "  tree: Parse trees of the -i inputs (LaTeX output uses qtree)\n",
    "options:\n",
    "  -h: Print this help\n",
    "  -l: Print in LaTeX format\n",
    "  -j: Print in JSON format\n",
    "  -i INPUT: Parse INPUT with the grammar (repeatable)\n",
    "The grammar is read from stdin when no file is given.\n"].flatMap String.toList
  stderr := []

end Outcome

/-! ## Answers -/

namespace Options

/-- The productions of a grammar in a format. -/
def productionsText (format : Format) (p : Parser) : Text :=
  let groups := p.grammar.ruleGroups
  match format with
  | .plain => Report.productionsPlain groups
  | .latex => Report.productionsLatex groups
  | .json => Report.productionsJson groups

/-- The facts about a grammar in a format. -/
def factsText (format : Format) (p : Parser) : Text :=
  let rows := p.grammar.factRows p.facts
  match format with
  | .plain => Report.factsPlain rows
  | .latex => Report.factsLatex rows
  | .json => Report.factsJson rows

/-- The table of a grammar in a format. -/
def tableText (format : Format) (p : Parser) : Text :=
  match format with
  | .plain => p.grid.plain
  | .latex => p.grid.latex
  | .json => Report.tableJson p.transitions

/-- A tree in a format. -/
def treeText (format : Format) (f : Forest) : Text :=
  match format with
  | .plain => f.plain
  | .latex => f.latex
  | .json => f.json

variable (o : Options)

/-- The texts of one output, with an error in the place of each input that has no tree. -/
def items (p : Parser) : Output → List (Except Error Text)
  | .productions => [.ok (productionsText o.format p)]
  | .facts => [.ok (factsText o.format p)]
  | .table => [.ok (tableText o.format p)]
  | .trees => o.inputs.map fun input => (p.parse input).map (treeText o.format)

/-- The outcome for a grammar text. -/
def answer : Except SourceFault Text → Outcome
  | .error fault => .failure fault.message
  | .ok text =>
    match Parser.ofText text with
    | .error e => .failure e.message
    | .ok p => .ofItems (o.outputs.flatMap (o.items p))

end Options

/-- **The outcome of a call**, given its arguments and how to fetch the text of a file, or of
standard input if there is no file. Nothing is fetched for the help text. -/
def respond {m : Type → Type} [Monad m] (args : List Text)
    (fetch : Option Text → m (Except SourceFault Text)) : m Outcome :=
  match Options.ofArgs? args with
  | none => pure .help
  | some o => do return o.answer (← fetch o.file?)

end PredictiveParsing.CommandLine
