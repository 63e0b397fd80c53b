import PredictiveParsing.Symbol

/-!
# Errors

What can go wrong when a grammar is read, compiled, or used to parse an input.

* `LineFault`: why a line of a grammar text cannot be read;
* `Error`: the causes, with the data that each one names;
* `Error.message`: their wording.
-/

namespace PredictiveParsing

/-- Why a line of a grammar text is neither a rule nor a continuation of one. -/
inductive LineFault where
  | tooManyArrows
  | emptyLeft
  | longLeft
  | reservedLeft
  | missingLeft
deriving DecidableEq

/-- A cause of failure. -/
inductive Error where
  /-- A line of a grammar text, counted from one, is malformed. -/
  | malformedLine (line : Nat) (fault : LineFault)
  /-- A reserved symbol is given a production. -/
  | reservedNonterminal (symbol : Char)
  /-- A grammar without rules is compiled. -/
  | noRules
  /-- A production claims a cell of the table that is taken. -/
  | ambiguous (nonterminal terminal production : Text)
  /-- The table has no production for the nonterminal to expand and the lookahead. -/
  | noTransition (nonterminal : Text) (lookahead : Char)
  /-- The lookahead is not the terminal that comes next. -/
  | unexpectedToken (found expected : Char)
  /-- Everything expected has been found, but the input is longer. -/
  | trailingInput (position length : Nat)
  /-- The parser has used up its allowance of steps. -/
  | stepLimit
deriving DecidableEq

/-- A text in apostrophes. -/
def quoted (t : Text) : Text := '\'' :: t ++ ['\'']

/-- The wording of a fault. -/
def LineFault.message : LineFault → Text
  | tooManyArrows => "too many \"->\"".toList
  | emptyLeft => "empty left side".toList
  | longLeft => "left side must be a single symbol".toList
  | reservedLeft => "reserved symbol on left side".toList
  | missingLeft => "cannot find left side".toList

namespace Error

/-- A cell of the table as it is named in messages. -/
def cell (nonterminal column : Text) : Text := quoted (nonterminal ++ " => ".toList ++ column)

/-- The wording of an error. -/
def message : Error → Text
  | malformedLine line fault =>
    "Line ".toList ++ Text.ofNat line ++ ": ".toList ++ fault.message
  | reservedNonterminal symbol =>
    quoted [symbol] ++ " is reserved and cannot be a nonterminal".toList
  | noRules => "grammar has no rules".toList
  | ambiguous nonterminal terminal production =>
    "ambiguous rule ".toList ++ quoted production ++ " for ".toList ++ cell nonterminal terminal
  | noTransition nonterminal lookahead =>
    "failed to find grammar for transition ".toList ++ cell nonterminal [lookahead]
  | unexpectedToken found expected =>
    "unexpected token ".toList ++ quoted [found] ++ ", expects ".toList ++ quoted [expected]
  | trailingInput position length =>
    "unexpected end of input: ".toList ++ Text.ofNat position ++ " of ".toList ++
      Text.ofNat length ++ " symbols consumed".toList
  | stepLimit => "step limit reached".toList

end Error

end PredictiveParsing
