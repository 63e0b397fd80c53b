import Mathlib
import PredictiveParsing.Proofs.Derivations
import PredictiveParsing.Proofs.Table.Prediction

/-!
# Grammars inside others

A numbered grammar is part of another one if every symbol can be found there, under another number
but of the same name and kind, and every production with it. Whatever is derived in the smaller
grammar is derived in the larger one, so the larger one knows all facts that the smaller one knows,
and has every conflict that the smaller one has.

* `Embeds`: one grammar is part of another;
* `derives`, `begins`, `follows`, **`predicts`**: nothing that is derived is lost;
* `isNullable`, `mem_firstOf`, `mem_followOf`, `mem_claimed`: no fact is lost;
* **`not_overlap`**: what is free of conflicts has only parts that are.
-/

namespace PredictiveParsing

/-- The first grammar is part of the second one: its symbols have other numbers there, and keep
their names, their kinds and all their productions. -/
structure Embeds (σ : ℕ → ℕ) (g g' : NumberedGrammar) : Prop where
  nameOf_eq : ∀ i, g'.nameOf (σ i) = g.nameOf i
  isTerminal_eq : ∀ i, g'.isTerminal (σ i) = g.isTerminal i
  bodies_subperm : ∀ A, ((g.bodies A).map (List.map σ)).Subperm (g'.bodies (σ A))

namespace Embeds

open NumberedGrammar

variable {σ : ℕ → ℕ} {g g' : NumberedGrammar} {A X t : ℕ} {as bs body symbols : List ℕ}

theorem lt_length (h : Embeds σ g g') (hA : A < g.nonterminals.length) :
    σ A < g'.nonterminals.length :=
  not_isTerminal_iff.1 ((h.isTerminal_eq A).trans (not_isTerminal_iff.2 hA))

/-! ## Derivations -/

theorem mem_rules (h : Embeds σ g g') (hr : (A, body) ∈ g.rules) :
    (σ A, body.map σ) ∈ g'.rules := by
  rw [NumberedGrammar.mem_rules] at hr ⊢
  exact (h.bodies_subperm A).subset (List.mem_map_of_mem hr)

theorem derives (h : Embeds σ g g') (hd : g.Derives as bs) :
    g'.Derives (as.map σ) (bs.map σ) :=
  hd.map fun _ _ => h.mem_rules

theorem begins (h : Embeds σ g g') (hb : g.Begins symbols t) :
    g'.Begins (symbols.map σ) (σ t) := by
  obtain ⟨hterm, rest, hd⟩ := hb
  exact ⟨(h.isTerminal_eq t).trans hterm, rest.map σ, h.derives hd⟩

theorem follows (h : Embeds σ g g') (hf : g.Follows A t) : g'.Follows (σ A) (σ t) := by
  obtain ⟨hterm, N, hN, before, after, hd⟩ := hf
  refine ⟨(h.isTerminal_eq t).trans hterm, σ N, h.lt_length hN, before.map σ, after.map σ, ?_⟩
  have hd' := h.derives hd
  rwa [List.map_append] at hd'

/-- **A terminal that calls for a production** still does so. -/
theorem predicts (h : Embeds σ g g') (hp : g.Predicts A body t) :
    g'.Predicts (σ A) (body.map σ) (σ t) :=
  hp.imp h.begins (And.imp h.derives h.follows)

/-! ## Facts -/

section

variable (h : Embeds σ g g') (hg : g.WellFormed) (hg' : g'.WellFormed)
include h hg hg'

theorem isNullable (hX : g.facts.isNullable X = true) : g'.facts.isNullable (σ X) = true := by
  rw [isNullable_iff_derives hg] at hX
  rw [isNullable_iff_derives hg']
  exact h.derives hX

theorem mem_firstOf (ht : t ∈ g.facts.firstOf X) : σ t ∈ g'.facts.firstOf (σ X) := by
  rw [mem_firstOf_iff_begins hg] at ht
  rw [mem_firstOf_iff_begins hg']
  exact h.begins ht

theorem mem_followOf (hA : A < g.nonterminals.length) (ht : t ∈ g.facts.followOf A) :
    σ t ∈ g'.facts.followOf (σ A) := by
  rw [mem_followOf_iff_follows hg hA] at ht
  rw [mem_followOf_iff_follows hg' (h.lt_length hA)]
  exact h.follows ht

theorem mem_claimed (hA : A < g.nonterminals.length) (ht : t ∈ g.facts.claimed A body) :
    σ t ∈ g'.facts.claimed (σ A) (body.map σ) := by
  rw [mem_claimed_iff_predicts hg hA] at ht
  rw [mem_claimed_iff_predicts hg' (h.lt_length hA)]
  exact h.predicts ht

/-- **A conflict of the part** is one of the whole. -/
theorem not_overlap (hoverlap : ¬ g'.Overlap fun A body t => t ∈ g'.facts.claimed A body) :
    ¬ g.Overlap fun A body t => t ∈ g.facts.claimed A body := by
  rw [not_overlap_iff] at hoverlap ⊢
  intro A
  obtain ⟨bodies, hperm, hsub⟩ := h.bodies_subperm A
  have hdisjoint := (hperm.pairwise_iff List.Disjoint.symm).1 ((hoverlap (σ A)).sublist hsub)
  rw [List.pairwise_map] at hdisjoint
  refine hdisjoint.imp_of_mem fun {body body'} hbody _ hdisjoint t ht ht' => ?_
  have hA := hg.lt_of_mem_rules (NumberedGrammar.mem_rules.2 hbody)
  exact hdisjoint (h.mem_claimed hg hg' hA ht) (h.mem_claimed hg hg' hA ht')

end

end Embeds

end PredictiveParsing
