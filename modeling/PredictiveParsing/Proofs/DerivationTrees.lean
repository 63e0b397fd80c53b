import Mathlib
import PredictiveParsing.Derivation
import PredictiveParsing.Proofs.Numbering
import PredictiveParsing.Proofs.Tree

/-!
# Derivations and derivation trees

A derivation tree derives its frontier, and whatever is derived is the frontier of such a tree.

* **`IsDerivation.derives`**: from trees to derivations;
* `Tree.ofProduction`: the tree of a production;
* `Tree.Flat`, **`flat_of_isDerivation`**: trees side by side, of which always the first is taken
  apart;
* `exists_trees`, **`exists_tree`**: from derivations to trees.
-/

namespace PredictiveParsing

namespace Tree.IsDerivation

variable {g : Grammar}

theorem derives_all {ts : List (Tree Char)} (h : ∀ t ∈ ts, g.Derives [t.label] t.frontier) :
    g.Derives (ts.map label) (ts.flatMap frontier) := by
  induction ts with
  | nil => exact .refl []
  | cons t ts ih =>
    rw [List.map_cons, List.flatMap_cons, ← List.singleton_append]
    exact (h t List.mem_cons_self).append (ih fun u hu => h u (List.mem_cons_of_mem _ hu))

/-- **A derivation tree derives its frontier.** -/
theorem derives {t : Tree Char} (h : t.IsDerivation g) : g.Derives [t.label] t.frontier := by
  induction h with
  | terminal a _ hε => rw [frontier_leaf hε]; exact .refl [a]
  | vanish A h => rw [frontier_vanish]; exact .of_rule h
  | expand A t ts h _ ih =>
    rw [frontier_node (List.cons_ne_nil _ _)]
    exact .trans (.of_rule h) (derives_all ih)

end Tree.IsDerivation

namespace Tree

variable {g : Grammar} {A : Char} {t : Tree Char} {cs : List (Tree Char)}

/-- A nonterminal above the trees for the symbols of one of its productions, or above `ε` if there
are none. -/
def ofProduction (A : Char) (cs : List (Tree Char)) : Tree Char :=
  node A (if cs = [] then [node epsilon []] else cs)

theorem label_ofProduction (A : Char) (cs : List (Tree Char)) : (ofProduction A cs).label = A := rfl

theorem frontier_ofProduction (A : Char) (cs : List (Tree Char)) :
    (ofProduction A cs).frontier = cs.flatMap frontier := by
  rw [ofProduction]
  by_cases h : cs = []
  · rw [if_pos h, frontier_vanish, h, List.flatMap_nil]
  · rw [if_neg h, frontier_node h]

theorem IsDerivation.ofProduction (h : cs.map label ∈ g.productions A)
    (hcs : ∀ c ∈ cs, c.IsDerivation g) : (Tree.ofProduction A cs).IsDerivation g := by
  cases cs with
  | nil => exact .vanish A h
  | cons c cs => exact .expand A c cs h hcs

theorem IsDerivation.eq_ofProduction (h : t.IsDerivation g) :
    (∃ a, a ∉ g.nonterminals ∧ a ≠ epsilon ∧ t = node a []) ∨
      ∃ A cs, cs.map Tree.label ∈ g.productions A ∧ (∀ c ∈ cs, c.IsDerivation g) ∧
        sizeAll cs < t.size ∧ t = Tree.ofProduction A cs := by
  cases h with
  | terminal a ha hε => exact Or.inl ⟨a, ha, hε, rfl⟩
  | vanish A hA => exact Or.inr ⟨A, [], hA, by simp, Nat.succ_pos _, rfl⟩
  | expand A c cs hA below => exact Or.inr ⟨A, c :: cs, hA, below, Nat.lt_succ_self _, rfl⟩

/-- Derivation trees side by side, read by taking always the first one apart: it is a terminal, or
the trees for a production take its place. -/
inductive Flat (g : Grammar) : List (Tree Char) → Prop where
  | nil : Flat g []
  | terminal (a : Char) (ts : List (Tree Char)) (h : a ∉ g.nonterminals) (hε : a ≠ epsilon)
      (rest : Flat g ts) : Flat g (node a [] :: ts)
  | expand (A : Char) (cs ts : List (Tree Char)) (h : cs.map label ∈ g.productions A)
      (below : ∀ c ∈ cs, c.IsDerivation g) (rest : Flat g (cs ++ ts)) :
    Flat g (ofProduction A cs :: ts)

/-- **All derivation trees can be read in this way**, as what is left becomes smaller. -/
theorem flat_of_isDerivation {ts : List (Tree Char)} (h : ∀ t ∈ ts, t.IsDerivation g) :
    Flat g ts := by
  induction hn : sizeAll ts using Nat.strong_induction_on generalizing ts with
  | _ n ih =>
    cases ts with
    | nil => exact .nil
    | cons t ts =>
      rw [sizeAll] at hn
      have hrest : ∀ u ∈ ts, u.IsDerivation g := fun u hu => h u (List.mem_cons_of_mem _ hu)
      rcases (h t List.mem_cons_self).eq_ofProduction with
        ⟨a, ha, hε, rfl⟩ | ⟨A, cs, hA, below, hsize, rfl⟩
      · exact .terminal a ts ha hε (ih _ (by rw [size] at hn; omega) hrest rfl)
      · refine .expand A cs ts hA below (ih _ ?_ ?_ rfl)
        · rw [sizeAll_eq, List.map_append, List.sum_append, ← sizeAll_eq, ← sizeAll_eq]
          omega
        · exact fun u hu => (List.mem_append.1 hu).elim (below u) (hrest u)

/-- Trees side by side are read until others are left, by taking always the first one apart. -/
inductive Reading (g : Grammar) : List (Tree Char) → List (Tree Char) → Prop where
  | refl (ts : List (Tree Char)) : Reading g ts ts
  | terminal (a : Char) {ts us : List (Tree Char)} (h : a ∉ g.nonterminals) (hε : a ≠ epsilon)
      (rest : Reading g ts us) : Reading g (node a [] :: ts) us
  | expand (A : Char) (cs : List (Tree Char)) {ts us : List (Tree Char)}
      (h : cs.map label ∈ g.productions A) (below : ∀ c ∈ cs, c.IsDerivation g)
      (rest : Reading g (cs ++ ts) us) : Reading g (ofProduction A cs :: ts) us

theorem Reading.trans {ts us vs : List (Tree Char)} (h : Reading g ts us) (h' : Reading g us vs) :
    Reading g ts vs := by
  induction h with
  | refl => exact h'
  | terminal a ha hε _ ih => exact .terminal a ha hε (ih h')
  | expand A cs hA below _ ih => exact .expand A cs hA below (ih h')

theorem reading_of_isDerivation {ts : List (Tree Char)} (h : ∀ t ∈ ts, t.IsDerivation g)
    (us : List (Tree Char)) : Reading g (ts ++ us) us := by
  induction flat_of_isDerivation h with
  | nil => exact .refl us
  | terminal a ts ha hε _ ih =>
    exact .terminal a ha hε (ih fun t ht => h t (List.mem_cons_of_mem _ ht))
  | expand A cs ts hA below _ ih =>
    have hrest : Reading g (cs ++ ts ++ us) us := ih fun t ht =>
      (List.mem_append.1 ht).elim (below t) fun ht => h t (List.mem_cons_of_mem _ ht)
    rw [List.append_assoc] at hrest
    exact .expand A cs hA below hrest

end Tree

namespace Grammar

open PredictiveParsing.Tree

variable {g : Grammar} {A : Char} {as bs w : Text}

theorem Derives.notMem {c : Char} (hc : ∀ B, ∀ right ∈ g.productions B, c ∉ right)
    (h : g.Derives as bs) (has : c ∉ as) : c ∉ bs := by
  induction h with
  | refl => exact has
  | tail _ hstep ih =>
    obtain ⟨us, vs, hright⟩ := hstep
    have hnotMem := hc _ _ hright
    simp only [List.mem_append, List.mem_cons, not_or] at ih ⊢
    exact ⟨⟨ih.1, hnotMem⟩, ih.2.2⟩

theorem Derives.epsilon_notMem (h : g.Derives as bs) (hε : epsilon ∉ as) : epsilon ∉ bs :=
  h.notMem (fun _ _ => epsilon_notMem_of_mem_productions) hε

theorem exists_trees_of_produces
    (h : Produces (fun A right => right ∈ g.productions A) as bs) {ts : List (Tree Char)}
    (hlabel : ts.map label = bs) (hts : ∀ t ∈ ts, t.IsDerivation g) :
    ∃ us : List (Tree Char), us.map label = as ∧
      us.flatMap frontier = ts.flatMap frontier ∧ ∀ u ∈ us, u.IsDerivation g := by
  obtain @⟨before, B, right, after, hright⟩ := h
  obtain ⟨front, vs, rfl, hfront, hvs⟩ := List.map_eq_append_iff.1 hlabel
  obtain ⟨us, cs, rfl, hus, rfl⟩ := List.map_eq_append_iff.1 hfront
  have hcs : ∀ c ∈ cs, c.IsDerivation g := fun c hc =>
    hts c (List.mem_append_left _ (List.mem_append_right _ hc))
  refine ⟨us ++ .ofProduction B cs :: vs, ?_, ?_, fun u hu => ?_⟩
  · rw [List.map_append, List.map_cons, hus, label_ofProduction, hvs]
  · rw [List.flatMap_append, List.flatMap_cons, frontier_ofProduction, List.flatMap_append,
      List.flatMap_append, List.append_assoc]
  · rcases List.mem_append.1 hu with hu | hu
    · exact hts u (List.mem_append_left _ (List.mem_append_left _ hu))
    · rcases List.mem_cons.1 hu with rfl | hu
      · exact .ofProduction hright hcs
      · exact hts u (List.mem_append_right _ hu)

/-- **Whatever is derived is the frontier of derivation trees**, one for each symbol. -/
theorem exists_trees (h : g.Derives as w) (hε : epsilon ∉ as) (hw : ∀ a ∈ w, a ∉ g.nonterminals) :
    ∃ ts : List (Tree Char), ts.map label = as ∧ ts.flatMap frontier = w ∧
      ∀ t ∈ ts, t.IsDerivation g := by
  replace hw : ∀ a ∈ w, a ∉ g.nonterminals ∧ a ≠ epsilon := fun a ha =>
    ⟨hw a ha, ne_of_mem_of_not_mem ha (h.epsilon_notMem hε)⟩
  clear hε
  induction h using Relation.ReflTransGen.head_induction_on with
  | refl =>
    refine ⟨w.map (.node · []), ?_, ?_, fun t ht => ?_⟩
    · rw [List.map_map]
      exact List.map_id w
    · rw [List.flatMap_map, List.flatMap_congr fun a ha => frontier_leaf (hw a ha).2,
        List.flatMap_singleton']
    · obtain ⟨a, ha, rfl⟩ := List.mem_map.1 ht
      exact .terminal a (hw a ha).1 (hw a ha).2
  | head hstep _ ih =>
    obtain ⟨ts, hlabel, hfrontier, hts⟩ := ih
    obtain ⟨us, hus, hfrontier', hder⟩ := exists_trees_of_produces hstep hlabel hts
    exact ⟨us, hus, hfrontier'.trans hfrontier, hder⟩

/-- **A string that a symbol derives** is the frontier of a derivation tree of the symbol. -/
theorem exists_tree (h : g.Derives [A] w) (hA : A ≠ epsilon) (hw : ∀ a ∈ w, a ∉ g.nonterminals) :
    ∃ t : Tree Char, t.label = A ∧ t.frontier = w ∧ t.IsDerivation g := by
  obtain ⟨ts, hlabel, rfl, hts⟩ :=
    exists_trees h (fun hε => hA (List.mem_singleton.1 hε).symm) hw
  obtain ⟨t, rfl, ht⟩ := List.map_eq_singleton_iff.1 hlabel
  exact ⟨t, ht, (List.flatMap_singleton _ _).symm, hts t List.mem_cons_self⟩

end Grammar

end PredictiveParsing
