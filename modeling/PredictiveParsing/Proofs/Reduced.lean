import Mathlib
import PredictiveParsing.Proofs.DerivationTrees

/-!
# Reduced grammars

A grammar is reduced if none of its nonterminals is useless: the start symbol leads to each of them,
and each of them derives a string of terminals. In a reduced grammar every sequence of symbols
derives such a string.

* `Grammar.Reachable`, `Grammar.Productive`, `Grammar.Reduced`;
* **`Reduced.exists_derives_terminals`**: what every sequence of symbols comes to;
* `Reduced.exists_trees`, `Reduced.exists_trees_cons`: the same by derivation trees.
-/

namespace PredictiveParsing.Grammar

open PredictiveParsing.Tree

variable {g : Grammar} {A a : Char} {as rest : Text}

/-- The nonterminal stands in something that the start symbol derives. -/
def Reachable (g : Grammar) (A : Char) : Prop :=
  ∃ s, g.start? = some s ∧ ∃ before after, g.Derives [s] (before ++ A :: after)

/-- The nonterminal derives a string of terminals. -/
def Productive (g : Grammar) (A : Char) : Prop :=
  ∃ w, g.Derives [A] w ∧ ∀ a ∈ w, a ∉ g.nonterminals

/-- No nonterminal is useless. -/
structure Reduced (g : Grammar) : Prop where
  reachable : ∀ A ∈ g.nonterminals, g.Reachable A
  productive : ∀ A ∈ g.nonterminals, g.Productive A

/-- **Every sequence of symbols derives a string of terminals**, symbol by symbol. -/
theorem Reduced.exists_derives_terminals (h : g.Reduced) (as : Text) :
    ∃ w, g.Derives as w ∧ ∀ a ∈ w, a ∉ g.nonterminals := by
  induction as with
  | nil => exact ⟨[], .refl [], fun a ha => absurd ha List.not_mem_nil⟩
  | cons a as ih =>
    obtain ⟨w, hw, hterm⟩ := ih
    have hfirst : g.Productive a := by
      by_cases ha : a ∈ g.nonterminals
      · exact h.productive a ha
      · exact ⟨[a], .refl [a], fun b hb => List.mem_singleton.1 hb ▸ ha⟩
    obtain ⟨v, hv, hterm'⟩ := hfirst
    exact ⟨v ++ w, hv.append hw, List.forall_mem_append.2 ⟨hterm', hterm⟩⟩

theorem Reduced.exists_trees (h : g.Reduced) (hε : epsilon ∉ as) :
    ∃ ts : List (Tree Char), ts.map label = as ∧ ∀ t ∈ ts, t.IsDerivation g := by
  obtain ⟨w, hw, hterm⟩ := h.exists_derives_terminals as
  obtain ⟨ts, hlabels, -, hts⟩ := Grammar.exists_trees hw hε hterm
  exact ⟨ts, hlabels, hts⟩

theorem Reduced.exists_trees_cons (h : g.Reduced) (hε : epsilon ∉ as) (ha : a ∉ g.nonterminals)
    (hder : g.Derives as (a :: rest)) :
    ∃ ts : List (Tree Char), ts.map label = as ∧ (∀ t ∈ ts, t.IsDerivation g) ∧
      ∃ w, ts.flatMap frontier = a :: w := by
  obtain ⟨w, hw, hterm⟩ := h.exists_derives_terminals rest
  have hfirst : g.Derives [a] [a] := .refl [a]
  obtain ⟨ts, hlabels, hfrontier, hts⟩ := Grammar.exists_trees (hder.trans (hfirst.append hw)) hε
    (List.forall_mem_cons.2 ⟨ha, hterm⟩)
  exact ⟨ts, hlabels, hts, w, hfrontier⟩

end PredictiveParsing.Grammar
