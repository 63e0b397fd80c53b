import PredictiveParsing.Table

/-!
# Parsers

A parser is a numbered grammar with the table that its facts make. Compiling leaves a log of the
stages that were completed, also when it fails.

* `Parser`, `Parser.startName`;
* `Compilation`, `Grammar.compilation`: compiling, with the log;
* **`Grammar.compile`**: the parser of a grammar.
-/

namespace PredictiveParsing

/-- A grammar with its parsing table. -/
structure Parser where
  grammar : NumberedGrammar
  facts : Facts
  table : Table
deriving DecidableEq

/-- The name of the start symbol. -/
def Parser.startName (p : Parser) : Text := p.grammar.nameOf p.grammar.start

/-- A stage of compiling that has been completed. -/
inductive Stage where
  | saturated (analysis : Analysis) (passes : Nat)
  | tabulated (cells : Nat)
deriving DecidableEq

/-- The wording of a stage. -/
def Stage.message : Stage → Text
  | saturated analysis passes =>
    analysis.name ++ " reached a fixed point after ".toList ++ Text.ofNat passes ++
      " passes".toList
  | tabulated cells =>
    "compiled LL(1) table with ".toList ++ Text.ofNat cells ++ " cells".toList

/-- The outcome of compiling: the stages that were completed, and the parser or the error. -/
structure Compilation where
  stages : List Stage
  result : Except Error Parser

namespace NumberedGrammar

/-- Compiles a numbered grammar: the analyses, then the table. -/
def compilation (g : NumberedGrammar) : Compilation :=
  let (F, log) := g.analyze g.noFacts
  let stages := log.map fun (a, passes) => .saturated a passes
  match g.table F with
  | .ok T => ⟨stages ++ [.tabulated T.size], .ok ⟨g, F, T⟩⟩
  | .error e => ⟨stages, .error e⟩

end NumberedGrammar

namespace Grammar

/-- Compiles a grammar, with a log. -/
def compilation (g : Grammar) : Compilation :=
  match g.number? with
  | some g => g.compilation
  | none => ⟨[], .error .noRules⟩

/-- **The parser of a grammar**, or the reason why it has none. -/
def compile (g : Grammar) : Except Error Parser := g.compilation.result

end Grammar

end PredictiveParsing
