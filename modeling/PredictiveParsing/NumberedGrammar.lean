import PredictiveParsing.Grammar.Basic
import PredictiveParsing.Text.Order

/-!
# Numbered grammars

A grammar whose symbols are numbers, extended by a start symbol that ends every sentence with the
end mark. The nonterminals come first, in the order of their rules, then the augmented start; the
terminals follow in the order in which they appear, and the end mark is last.

* `NumberedGrammar`, `names`, `indexOf`, `isTerminal`, `bodies`;
* `freshName`: a name that no symbol has yet;
* `Grammar.number`, `Grammar.number?`: the numbered form of a grammar.
-/

namespace PredictiveParsing

/-- A base name with as few primes as make it none of the taken ones, looking no further than
`fuel` primes. -/
def freshNameWithin (taken : List Text) : Nat → Text → Text
  | 0, name => name
  | fuel + 1, name => if name ∈ taken then freshNameWithin taken fuel (name ++ ['\'']) else name

/-- A base name with as few primes as make it none of the taken ones. Of the names with up to as
many primes as there are taken names, one is free. -/
def freshName (taken : List Text) (base : Text) : Text := freshNameWithin taken taken.length base

/-- A grammar over numbers. The number of a symbol is its position in `names`; every nonterminal
has a list of productions, and a production is a list of symbols. -/
structure NumberedGrammar where
  nonterminals : List Text
  terminals : List Text
  productions : List (List (List Nat))
deriving DecidableEq

namespace NumberedGrammar

variable (g : NumberedGrammar)

/-- The names of all symbols. -/
def names : List Text := g.nonterminals ++ g.terminals

/-- The number of symbols. -/
def size : Nat := g.names.length

/-- The symbol of a name. -/
def indexOf? (name : Text) : Option Nat := g.names.idxOf? name

/-- The name of a symbol. -/
def nameOf (i : Nat) : Text := g.names.getD i []

/-- Terminals come after the nonterminals. -/
def isTerminal (i : Nat) : Bool := g.nonterminals.length ≤ i

/-- The start symbol. -/
def start (_ : NumberedGrammar) : Nat := 0

/-- The augmented start, whose only production is the start symbol and the end mark. -/
def augmentedStart : Nat := g.nonterminals.length - 1

/-- The end mark. -/
def endMark : Nat := g.size - 1

/-- The productions of a nonterminal. -/
def bodies (A : Nat) : List (List Nat) := g.productions.getD A []

/-- One production of a nonterminal. -/
def body (A i : Nat) : List Nat := (g.bodies A).getD i []

/-- Every production with its nonterminal, in the order of the numbers. -/
def rules : List (Nat × List Nat) :=
  g.productions.zipIdx.flatMap fun (bodies, A) => bodies.map fun body => (A, body)

/-- A production as a text: the names of its symbols, or `ε` if it has none. -/
def bodyText (body : List Nat) : Text :=
  if body = [] then [epsilon] else body.flatMap g.nameOf

/-- The character that a symbol is shown by in a tree. Only the augmented start has a longer name,
and it is in no tree. -/
def label (i : Nat) : Char := (g.nameOf i).headD epsilon

/-- The names of a list of symbols, in order. -/
def sortedNames (is : List Nat) : List Text := sortOn id (is.map g.nameOf)

end NumberedGrammar

namespace Grammar

/-- The grammar over numbers, extended by the start symbol `start` with a prime. -/
def number (g : Grammar) (start : Char) : NumberedGrammar :=
  let users : List Text := g.nonterminals.map fun A => [A]
  let nonterminals := users ++ [freshName users [start]]
  let terminals : List Text := (g.terminals.map fun a => [a]) ++ [[endMark]]
  let names := nonterminals ++ terminals
  let bodies (A : Char) : List (List Nat) :=
    (g.productions A).map fun right => right.map fun c => names.idxOf [c]
  { nonterminals
    terminals
    productions := g.nonterminals.map bodies ++ [[[0, names.length - 1]]] }

/-- The numbered form of a grammar that has rules. -/
def number? (g : Grammar) : Option NumberedGrammar := g.start?.map g.number

end Grammar

end PredictiveParsing
