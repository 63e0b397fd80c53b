import PredictiveParsing.Parser.Basic
import PredictiveParsing.Forest.Basic

/-!
# Runs of a parser

A parser keeps a stack of symbols that the rest of the input has to derive, each with the node of
the tree that it stands for. It expands a nonterminal on top by the production that the table gives
for the lookahead, and consumes the lookahead if it is the terminal on top, until the end mark is on
top.

* `Config`, `Config.initial`: the state of a run;
* `Move`, `Stop`, `Parser.move?`: the next move, or why there is none;
* `Config.apply`: the effect of a move;
* `Parser.run`, `Run`: the moves of a whole run and the configuration where it stops;
* **`Parser.parse`**: the tree of an input, or the error.
-/

namespace PredictiveParsing

/-- A symbol that the input is still to derive, and its node. -/
structure Pending where
  symbol : Nat
  node : Nat
deriving DecidableEq

/-- The state of a run: how much input is consumed, what is left of it, the pending symbols with the
next one first, and the tree so far. -/
structure Config where
  cursor : Nat
  rest : Text
  stack : List Pending
  forest : Forest
deriving DecidableEq

/-- A step of a parser. -/
inductive Move where
  /-- The nonterminal on top of the stack is expanded by a production. -/
  | expand (nonterminal production : Nat) (lookahead : Char)
  /-- The terminal on top of the stack is the next symbol of the input. -/
  | consume (terminal position : Nat)
deriving DecidableEq

/-- Why a run stops. -/
inductive Stop where
  | atEndMark
  | failed (e : Error)
deriving DecidableEq

namespace Config

/-- The next symbol of the input. After the input comes the end mark. -/
def lookahead (c : Config) : Char := c.rest.headD endMark

/-- Before the first move: the start symbol is to be derived, and then the end mark. -/
def initial (g : NumberedGrammar) (input : Text) : Config where
  cursor := 0
  rest := input
  stack := [⟨g.start, Forest.root⟩, ⟨g.endMark, Forest.root⟩]
  forest := .singleton (g.label g.start)

/-- Puts a production in the place of the top symbol. Its symbols become the children of the node,
or `ε` if there are none. -/
def expand (g : NumberedGrammar) (body : List Nat) : Config → Config
  | ⟨cursor, rest, top :: stack, forest⟩ =>
    let first := forest.size
    let labels := if body = [] then [epsilon] else body.map g.label
    ⟨cursor, rest, (body.zipIdx first).map (fun (s, node) => ⟨s, node⟩) ++ stack,
      forest.addNodes labels top.node⟩
  | c => c

/-- Passes over the next symbol of the input and the top symbol. -/
def consume : Config → Config
  | ⟨cursor, rest, stack, forest⟩ => ⟨cursor + 1, rest.tail, stack.tail, forest⟩

/-- The configuration after a move. -/
def apply (g : NumberedGrammar) (c : Config) : Move → Config
  | .expand A i _ => c.expand g (g.body A i)
  | .consume _ _ => c.consume

end Config

/-- A whole run: its moves, the configuration where it stops, and why. -/
structure Run where
  moves : List Move
  last : Config
  stop : Stop
deriving DecidableEq

namespace Parser

variable (p : Parser)

/-- The production to expand for a nonterminal on a lookahead, which need not be a symbol. -/
def choice? (A : Nat) (lookahead : Char) : Option Nat :=
  (p.grammar.indexOf? [lookahead]).bind (p.table.get? A)

/-- The next move, or the reason to stop. -/
def move? (c : Config) : Except Stop Move :=
  match c.stack with
  | [] => .error .atEndMark
  | top :: _ =>
    let s := top.symbol
    if s = p.grammar.endMark then .error .atEndMark
    else if p.grammar.isTerminal s then
      if p.grammar.indexOf? [c.lookahead] = some s then .ok (.consume s c.cursor)
      else .error (.failed (.unexpectedToken c.lookahead (p.grammar.label s)))
    else
      match p.choice? s c.lookahead with
      | some i => .ok (.expand s i c.lookahead)
      | none => .error (.failed (.noTransition (p.grammar.nameOf s) c.lookahead))

/-- A run from a configuration, of at most `limit` moves. The moves made before are in `done`, last
first. -/
def runFrom : Nat → Config → List Move → Run
  | 0, c, done => ⟨done.reverse, c, .failed .stepLimit⟩
  | limit + 1, c, done =>
    match p.move? c with
    | .ok m => runFrom limit (c.apply p.grammar m) (m :: done)
    | .error stop => ⟨done.reverse, c, stop⟩

/-- The length of the longest production. -/
def longestBody : Nat := (p.grammar.rules.map (·.2.length)).foldl max 0

/-- More moves than the parser of a grammar makes on an input of the given length. Between two
symbols of the input no nonterminal is expanded inside itself, neither on the way to the next symbol
nor in vanishing: so both ways are no deeper than there are nonterminals, and a nonterminal that
vanishes has no more nodes than a tree of that depth and the width of the longest production. -/
def moveLimit (length : Nat) : Nat :=
  let depth := p.grammar.nonterminals.length + 2
  let width := p.longestBody + 2
  (length + 2) * (length + 2) * (depth * depth) * Nat.pow width (depth + 2)

/-- The run on an input. -/
def run (input : Text) : Run :=
  p.runFrom (p.moveLimit input.length) (.initial p.grammar input) []

end Parser

/-- What a run makes of an input: at the end mark, the tree, if the input has been consumed. -/
def Run.result (length : Nat) (r : Run) : Except Error Forest :=
  match r.stop with
  | .failed e => .error e
  | .atEndMark =>
    if r.last.cursor = length then .ok r.last.forest
    else .error (.trailingInput r.last.cursor length)

/-- **The tree of an input**, or the error. -/
def Parser.parse (p : Parser) (input : Text) : Except Error Forest :=
  (p.run input).result input.length

namespace NumberedGrammar

/-- A move in words. -/
def describe (g : NumberedGrammar) : Move → Text
  | .expand A i lookahead =>
    "expand ".toList ++ g.nameOf A ++ " -> ".toList ++ g.bodyText (g.body A i) ++
      " on ".toList ++ quoted [lookahead]
  | .consume a position =>
    "match ".toList ++ quoted [g.label a] ++ " at ".toList ++ Text.ofNat position

end NumberedGrammar

end PredictiveParsing
