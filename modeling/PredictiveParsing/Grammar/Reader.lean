import PredictiveParsing.Grammar.Basic

/-!
# Grammar texts

A grammar is written with one left side per line, as in `E -> (E+I) | I | ε`. A line that starts
with `|` adds alternatives to the left side of the last rule. White space counts for nothing, and
an empty alternative is the empty production.

* `Line`, `Line.read`: what one line says on its own;
* `Reader`, `Reader.addLine`: the grammar so far and the left side that a continuation is for;
* `Grammar.read`: the grammar of a text, or its first malformed line.
-/

namespace PredictiveParsing

/-- What a line of a grammar text says. -/
inductive Line where
  | blank
  | rule (left : Nonterminal) (alternatives : Text)
  | continuation (alternatives : Text)
deriving DecidableEq

/-- Reads a line by itself. -/
def Line.read (line : Text) : Except LineFault Line :=
  if line.all isBlank then .ok .blank
  else
    match Text.splitOn ['-', '>'] line with
    | [whole] =>
      match Text.trim whole with
      | '|' :: alternatives => .ok (.continuation alternatives)
      | _ => .error .missingLeft
    | [before, alternatives] =>
      match Text.trim before with
      | [] => .error .emptyLeft
      | [c] =>
        match Nonterminal.ofChar? c with
        | some A => .ok (.rule A alternatives)
        | none => .error .reservedLeft
      | _ => .error .longLeft
    | _ => .error .tooManyArrows

/-- The productions between the bars of a text. -/
def alternatives (t : Text) : List Text := (Text.splitOn ['|'] t).map Text.removeBlanks

/-- Adds every alternative of a text to a nonterminal. -/
def Grammar.addAlternatives (g : Grammar) (A : Nonterminal) (t : Text) : Grammar :=
  (alternatives t).foldl (fun g right => g.add (.ofText A right)) g

/-- A grammar text half read: the rules so far, and the left side of the last one. -/
structure Reader where
  grammar : Grammar
  left? : Option Nonterminal

namespace Reader

/-- Before the first line. -/
def start : Reader := ⟨.empty, none⟩

/-- Reads one more line. A continuation needs a left side before it. -/
def addLine (r : Reader) (line : Text) : Except LineFault Reader := do
  match ← Line.read line, r.left? with
  | .blank, _ => .ok r
  | .rule A t, _ => .ok ⟨r.grammar.addAlternatives A t, some A⟩
  | .continuation t, some A => .ok ⟨r.grammar.addAlternatives A t, some A⟩
  | .continuation _, none => .error .missingLeft

/-- Reads a line that has a number, by which its fault is reported. -/
def addNumbered (r : Reader) (line : Text × Nat) : Except Error Reader :=
  (r.addLine line.1).mapError (.malformedLine line.2)

end Reader

/-- **The grammar of a text**, or the first line that is malformed. Lines are counted from one,
blank ones too. -/
def Grammar.read (t : Text) : Except Error Grammar :=
  (((Text.lines t).zipIdx 1).foldlM Reader.addNumbered .start).map (·.grammar)

end PredictiveParsing
