import Mathlib
import PredictiveParsing.Proofs.Renumbering.Embedding

/-!
# Renumbered grammars

Two numbered grammars that have the same symbols under other numbers, and the same productions in
another order. Each of them is part of the other, so that what is derived in one is derived in the
other, number for number; so are the facts, the claims to the table, and the choices of the table.

* `Renumbers`, `Renumbers.symm`: one grammar is the other with other numbers;
* `Renumbers.embeds`: one grammar is part of the other;
* `derives_iff`, `begins_iff`, `follows_iff`, **`predicts_iff`**: the same derivations;
* `isNullable_eq`, `mem_firstOf_iff`, `mem_followOf_iff`: the same facts;
* **`exists_table_iff`**: both have a table, or neither has;
* **`map_body_get?`**: the same choices.
-/

namespace PredictiveParsing

/-- The second grammar is the first one with its symbols renumbered and its productions put in
another order: every symbol keeps its name and its kind. -/
structure Renumbers (σ : Equiv.Perm ℕ) (g g' : NumberedGrammar) : Prop where
  nameOf_eq : ∀ i, g'.nameOf (σ i) = g.nameOf i
  indexOf?_eq : ∀ name, g'.indexOf? name = (g.indexOf? name).map σ
  size_eq : g'.size = g.size
  lt_size_iff : ∀ i, σ i < g.size ↔ i < g.size
  length_eq : g'.nonterminals.length = g.nonterminals.length
  lt_length_iff : ∀ i, σ i < g.nonterminals.length ↔ i < g.nonterminals.length
  start_eq : σ g.start = g'.start
  endMark_eq : σ g.endMark = g'.endMark
  bodies_perm : ∀ A, (g'.bodies (σ A)).Perm ((g.bodies A).map (List.map σ))

namespace Renumbers

open NumberedGrammar

variable {σ : Equiv.Perm ℕ} {g g' : NumberedGrammar} {A X t : ℕ} {as bs body symbols : List ℕ}

theorem map_symm_map (σ : Equiv.Perm ℕ) (symbols : List ℕ) :
    (symbols.map σ).map σ.symm = symbols := by
  rw [List.map_map, Equiv.symm_comp_self, List.map_id]

theorem symm (h : Renumbers σ g g') : Renumbers σ.symm g' g where
  nameOf_eq i := by rw [← h.nameOf_eq, Equiv.apply_symm_apply]
  indexOf?_eq name := by
    rw [h.indexOf?_eq, Option.map_map, Equiv.symm_comp_self, Option.map_id]
    rfl
  size_eq := h.size_eq.symm
  lt_size_iff i := by rw [h.size_eq, ← h.lt_size_iff, Equiv.apply_symm_apply]
  length_eq := h.length_eq.symm
  lt_length_iff i := by rw [h.length_eq, ← h.lt_length_iff, Equiv.apply_symm_apply]
  start_eq := by rw [← h.start_eq, Equiv.symm_apply_apply]
  endMark_eq := by rw [← h.endMark_eq, Equiv.symm_apply_apply]
  bodies_perm A := by
    have hperm := (h.bodies_perm (σ.symm A)).map (List.map σ.symm)
    rw [Equiv.apply_symm_apply, List.map_map] at hperm
    have hback : List.map σ.symm ∘ List.map σ = id := funext (map_symm_map σ)
    rw [hback, List.map_id] at hperm
    exact hperm.symm

theorem isTerminal_eq (h : Renumbers σ g g') (i : ℕ) : g'.isTerminal (σ i) = g.isTerminal i := by
  rw [Bool.eq_iff_iff, isTerminal_iff, isTerminal_iff, h.length_eq, ← Nat.not_lt, ← Nat.not_lt,
    h.lt_length_iff]

theorem label_eq (h : Renumbers σ g g') (i : ℕ) : g'.label (σ i) = g.label i := by
  rw [label, label, h.nameOf_eq]

theorem bodyText_eq (h : Renumbers σ g g') (body : List ℕ) :
    g'.bodyText (body.map σ) = g.bodyText body := by
  simp only [bodyText, List.map_eq_nil_iff, List.flatMap_map, h.nameOf_eq]

theorem embeds (h : Renumbers σ g g') : Embeds σ g g' where
  nameOf_eq := h.nameOf_eq
  isTerminal_eq := h.isTerminal_eq
  bodies_subperm A := (h.bodies_perm A).symm.subperm

/-! ## Derivations -/

theorem mem_rules (h : Renumbers σ g g') (hr : (A, body) ∈ g.rules) :
    (σ A, body.map σ) ∈ g'.rules :=
  h.embeds.mem_rules hr

theorem derives_iff (h : Renumbers σ g g') (as bs : List ℕ) :
    g'.Derives (as.map σ) (bs.map σ) ↔ g.Derives as bs := by
  refine ⟨fun hd => ?_, h.embeds.derives⟩
  have hback := h.symm.embeds.derives hd
  rwa [map_symm_map, map_symm_map] at hback

theorem begins_iff (h : Renumbers σ g g') (symbols : List ℕ) :
    g'.Begins (symbols.map σ) (σ t) ↔ g.Begins symbols t := by
  refine ⟨fun hb => ?_, h.embeds.begins⟩
  have hback := h.symm.embeds.begins hb
  rwa [map_symm_map, Equiv.symm_apply_apply] at hback

theorem follows_iff (h : Renumbers σ g g') : g'.Follows (σ A) (σ t) ↔ g.Follows A t := by
  refine ⟨fun hf => ?_, h.embeds.follows⟩
  have hback := h.symm.embeds.follows hf
  rwa [Equiv.symm_apply_apply, Equiv.symm_apply_apply] at hback

/-- **The same terminals call for the same productions.** -/
theorem predicts_iff (h : Renumbers σ g g') :
    g'.Predicts (σ A) (body.map σ) (σ t) ↔ g.Predicts A body t :=
  or_congr (h.begins_iff body) (and_congr (h.derives_iff body []) h.follows_iff)

/-! ## Facts -/

section

variable (h : Renumbers σ g g') (hg : g.WellFormed) (hg' : g'.WellFormed)
include h hg hg'

theorem isNullable_eq (X : ℕ) : g'.facts.isNullable (σ X) = g.facts.isNullable X := by
  rw [Bool.eq_iff_iff, isNullable_iff_derives hg, isNullable_iff_derives hg']
  exact h.derives_iff [X] []

theorem mem_firstOf_iff : σ t ∈ g'.facts.firstOf (σ X) ↔ t ∈ g.facts.firstOf X := by
  rw [mem_firstOf_iff_begins hg, mem_firstOf_iff_begins hg']
  exact h.begins_iff [X]

theorem mem_followOf_iff (hA : A < g.nonterminals.length) :
    σ t ∈ g'.facts.followOf (σ A) ↔ t ∈ g.facts.followOf A := by
  have hA' : σ A < g'.nonterminals.length := h.length_eq ▸ (h.lt_length_iff A).2 hA
  rw [mem_followOf_iff_follows hg hA, mem_followOf_iff_follows hg' hA', h.follows_iff]

theorem mem_claimed_iff (hA : A < g.nonterminals.length) :
    σ t ∈ g'.facts.claimed (σ A) (body.map σ) ↔ t ∈ g.facts.claimed A body := by
  have hA' : σ A < g'.nonterminals.length := h.length_eq ▸ (h.lt_length_iff A).2 hA
  rw [mem_claimed_iff_predicts hg hA, mem_claimed_iff_predicts hg' hA', h.predicts_iff]

/-! ## Tables -/

/-- **Both grammars have a table**, or neither has. -/
theorem exists_table_iff :
    (∃ T, g'.table g'.facts = .ok T) ↔ ∃ T, g.table g.facts = .ok T := by
  rw [exists_table_iff_not_overlap hg, exists_table_iff_not_overlap hg']
  exact ⟨h.embeds.not_overlap hg hg', h.symm.embeds.not_overlap hg' hg⟩

end

section

variable {p p' : Parser} (h : Renumbers σ p.grammar p'.grammar)
include h

theorem exists_get? (hp : p.Compiled) (hp' : p'.Compiled) {i : ℕ}
    (hi : p.table.get? A t = some i) : ∃ j, p'.table.get? (σ A) (σ t) = some j ∧
      p'.grammar.body (σ A) j = (p.grammar.body A i).map σ := by
  obtain ⟨hr, ht⟩ := hp.mem_rules_of_get? hi
  refine hp'.exists_get? (h.mem_rules hr) ?_
  rw [hp.facts_eq] at ht
  rw [hp'.facts_eq]
  exact (h.mem_claimed_iff hp.wellFormed hp'.wellFormed (hp.lt_of_mem_rules hr)).2 ht

/-- **The tables choose the same productions.** -/
theorem map_body_get? (hp : p.Compiled) (hp' : p'.Compiled) (A t : ℕ) :
    (p'.table.get? (σ A) (σ t)).map (p'.grammar.body (σ A)) =
      (p.table.get? A t).map fun i => (p.grammar.body A i).map σ := by
  cases hi : p.table.get? A t with
  | some i =>
    obtain ⟨j, hj, hbody⟩ := h.exists_get? hp hp' hi
    rw [hj, Option.map_some, Option.map_some, hbody]
  | none =>
    cases hj : p'.table.get? (σ A) (σ t) with
    | none => rfl
    | some j =>
      obtain ⟨i, hi', -⟩ := h.symm.exists_get? hp' hp hj
      rw [Equiv.symm_apply_apply, Equiv.symm_apply_apply, hi] at hi'
      cases hi'

end

end Renumbers

end PredictiveParsing
