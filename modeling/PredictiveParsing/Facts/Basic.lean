import PredictiveParsing.Facts.Saturation
import PredictiveParsing.IndexSet
import PredictiveParsing.NumberedGrammar

/-!
# Facts about a grammar

Which nonterminals can vanish, which terminals can stand first in what they derive, and which can
follow them. Each of the three is the least solution of a rule that reads one production at a
time; the rules are applied to all productions in turn until nothing changes.

* `Facts`: what is known about each nonterminal;
* `isNullable`, `firstOf`, `followOf`, `isNullableSeq`, `firstSeq`: the facts about symbols and
  sequences of symbols;
* `Analysis`, `Analysis.apply`: the rule of each of the three analyses;
* `NumberedGrammar.pass`, `NumberedGrammar.analyze`: their saturation;
* **`NumberedGrammar.facts`**: the facts about a grammar.
-/

namespace PredictiveParsing

/-- What is known about the nonterminals, each in the place of its number. A symbol without a place
is a terminal. -/
structure Facts where
  nullable : List Bool
  first : List IndexSet
  follow : List IndexSet
deriving DecidableEq

namespace Facts

/-- Nothing is known about `n` nonterminals. -/
def blank (n : Nat) : Facts :=
  ⟨.replicate n false, .replicate n ∅, .replicate n ∅⟩

variable (F : Facts)

/-! ## Symbols and sequences -/

/-- The symbol can vanish. A terminal cannot. -/
def isNullable (i : Nat) : Bool := F.nullable.getD i false

/-- The terminals that can stand first in what a symbol derives. A terminal derives itself. -/
def firstOf (i : Nat) : IndexSet := F.first.getD i (.singleton i)

/-- The terminals that can follow a nonterminal. -/
def followOf (A : Nat) : IndexSet := F.follow.getD A ∅

/-- Every symbol of the sequence can vanish. -/
def isNullableSeq (symbols : List Nat) : Bool := symbols.all F.isNullable

/-- The terminals that can stand first in what a sequence derives: those of its symbols up to the
first one that cannot vanish. -/
def firstSeq : List Nat → IndexSet
  | [] => ∅
  | i :: symbols => if F.isNullable i then F.firstOf i ∪ firstSeq symbols else F.firstOf i

/-- One symbol more, from right to left: `scan.2` is what can follow the symbol, and it is recorded
in `scan.1` if the symbol is a nonterminal. -/
def followStep (g : NumberedGrammar) (i : Nat) (scan : List (Nat × IndexSet) × IndexSet) :
    List (Nat × IndexSet) × IndexSet :=
  (if g.isTerminal i then scan.1 else scan.1 ++ [(i, scan.2)],
    if F.isNullable i then F.firstOf i ∪ scan.2 else F.firstOf i)

/-- What a production of `A` adds to the terminals that can follow each of its nonterminals, from
right to left. -/
def followUpdates (g : NumberedGrammar) (A : Nat) (body : List Nat) : List (Nat × IndexSet) :=
  (body.foldr (F.followStep g) ([], F.followOf A)).1

/-- Adds terminals to those that can follow a nonterminal. -/
def addFollow (update : Nat × IndexSet) : Facts :=
  { F with follow := F.follow.modify update.1 (update.2 ∪ ·) }

end Facts

/-! ## Analyses -/

/-- The three analyses. -/
inductive Analysis where
  | nullable
  | first
  | follow
deriving DecidableEq

namespace Analysis

/-- All analyses, in the order in which they run: each one reads what those before it have found. -/
def all : List Analysis := [nullable, first, follow]

/-- What an analysis is called in logs. -/
def name : Analysis → Text
  | nullable => "nullable".toList
  | first => "first".toList
  | follow => "follow".toList

/-- What one production of `A` adds to the facts. -/
def apply (g : NumberedGrammar) (F : Facts) (A : Nat) (body : List Nat) : Analysis → Facts
  | nullable => { F with nullable := F.nullable.modify A (· || F.isNullableSeq body) }
  | first => { F with first := F.first.modify A (F.firstSeq body ∪ ·) }
  | follow => (F.followUpdates g A body).foldl Facts.addFollow F

end Analysis

namespace NumberedGrammar

variable (g : NumberedGrammar)

/-- One pass of an analysis: every production in turn, each seeing what those before it added. -/
def pass (a : Analysis) (F : Facts) : Facts :=
  g.rules.foldl (fun F (A, body) => a.apply g F A body) F

/-- More passes than an analysis takes: all but the last add a fact, and there are no more facts
than nonterminals with a symbol. -/
def passLimit : Nat := g.nonterminals.length * (g.size + 1) + 1

/-- An analysis run to its end, with the number of passes. -/
def complete (a : Analysis) (F : Facts) : Facts × Nat := saturate (g.pass a) g.passLimit F

/-- All three analyses run from some facts, with the number of passes that each one took. -/
def analyze (F : Facts) : Facts × List (Analysis × Nat) :=
  Analysis.all.foldl (fun (F, log) a =>
    let (F, passes) := g.complete a F
    (F, log ++ [(a, passes)])) (F, [])

/-- Nothing is known about the grammar. -/
def noFacts : Facts := .blank g.nonterminals.length

/-- **The facts about a grammar.** -/
def facts : Facts := (g.analyze g.noFacts).1

end NumberedGrammar

end PredictiveParsing
