import Mathlib.Logic.Relation
import PredictiveParsing.NumberedGrammar

/-!
# Derivations

What a sequence of symbols becomes under rules, over any kind of symbol: over characters
for a grammar, and over numbers for its numbered form.

* `Produces`, `Derives`: one step, and any number of steps;
* `Derives.append`: sequences derive side by side;
* `Grammar.Derives`, `NumberedGrammar.Derives`: the derivations of a grammar;
* `NumberedGrammar.Begins`, `Follows`, `Predicts`: the terminals that can stand first in what
  symbols derive, the terminals that can follow a symbol, and those that call for a production.
-/

namespace PredictiveParsing

section

variable {σ : Type} (rule : σ → List σ → Prop)

/-- One step: a symbol is replaced by the right side of one of its rules. -/
inductive Produces : List σ → List σ → Prop where
  | replace (before : List σ) {A : σ} {body : List σ} (after : List σ) (h : rule A body) :
    Produces (before ++ A :: after) (before ++ body ++ after)

/-- Any number of steps. -/
def Derives : List σ → List σ → Prop := Relation.ReflTransGen (Produces rule)

variable {rule} {as bs cs ds : List σ}

theorem Derives.refl (as : List σ) : Derives rule as as := Relation.ReflTransGen.refl

theorem Derives.trans (h : Derives rule as bs) (h' : Derives rule bs cs) : Derives rule as cs :=
  Relation.ReflTransGen.trans h h'

theorem Derives.of_rule {A : σ} {body : List σ} (h : rule A body) : Derives rule [A] body := by
  have step : Produces rule ([] ++ A :: []) ([] ++ body ++ []) := .replace [] [] h
  rw [List.append_nil] at step
  exact Relation.ReflTransGen.single step

theorem Produces.context (before after : List σ) (h : Produces rule as bs) :
    Produces rule (before ++ as ++ after) (before ++ bs ++ after) := by
  obtain ⟨us, vs, h⟩ := h
  have step : Produces rule _ _ := .replace (before ++ us) (vs ++ after) h
  simpa [List.append_assoc] using step

theorem Derives.context (before after : List σ) (h : Derives rule as bs) :
    Derives rule (before ++ as ++ after) (before ++ bs ++ after) := by
  induction h with
  | refl => exact .refl _
  | tail _ h ih => exact Relation.ReflTransGen.tail ih (h.context before after)

/-- **Sequences derive side by side.** -/
theorem Derives.append (h : Derives rule as bs) (h' : Derives rule cs ds) :
    Derives rule (as ++ cs) (bs ++ ds) := by
  have h₁ := h.context [] cs
  have h₂ := h'.context bs []
  simp only [List.nil_append, List.append_nil] at h₁ h₂
  exact h₁.trans h₂

end

/-- Derivations by the rules of a grammar. -/
def Grammar.Derives (g : Grammar) : Text → Text → Prop :=
  PredictiveParsing.Derives fun A right => right ∈ g.productions A

/-- Derivations by the productions of a numbered grammar, the augmented start included. -/
def NumberedGrammar.Derives (g : NumberedGrammar) : List Nat → List Nat → Prop :=
  PredictiveParsing.Derives fun A body => (A, body) ∈ g.rules

namespace NumberedGrammar

variable (g : NumberedGrammar)

/-- The terminal can stand first in what the symbols derive. -/
def Begins (symbols : List Nat) (t : Nat) : Prop :=
  g.isTerminal t = true ∧ ∃ rest, g.Derives symbols (t :: rest)

/-- The terminal can stand right after the symbol in what some nonterminal derives, whether or not
the start symbol leads to that nonterminal. -/
def Follows (A t : Nat) : Prop :=
  g.isTerminal t = true ∧ ∃ N < g.nonterminals.length, ∃ before after,
    g.Derives [N] (before ++ A :: t :: after)

/-- The terminal calls for a production of `A`: it can stand first in what the production derives,
or the production can vanish and the terminal can follow `A`. -/
def Predicts (A : Nat) (body : List Nat) (t : Nat) : Prop :=
  g.Begins body t ∨ (g.Derives body [] ∧ g.Follows A t)

end NumberedGrammar

end PredictiveParsing
