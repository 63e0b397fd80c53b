import Mathlib
import PredictiveParsing.Answer
import PredictiveParsing.Proofs.Renumbering.Basic
import PredictiveParsing.Proofs.Report.Rows
import PredictiveParsing.Report.Facts

/-!
# Reports under other numbers

What is reported by name does not depend on the numbers of the symbols: the facts about each
nonterminal are the same, and so is the table.

* `map_zipIdx_perm`: the same rows, if the rows of each nonterminal are the same;
* **`factRows_perm`**: the same facts; **`transitions_eq`**: the same table.
-/

namespace PredictiveParsing

namespace Renumbers

variable {σ : Equiv.Perm ℕ} {g g' : NumberedGrammar}

theorem perm_map {as bs : List ℕ} (has : as.Nodup) (hbs : bs.Nodup) (h : ∀ i, σ i ∈ bs ↔ i ∈ as) :
    bs.Perm (as.map σ) := by
  refine (List.perm_ext_iff_of_nodup hbs (has.map σ.injective)).2 fun i => ?_
  obtain ⟨j, rfl⟩ := σ.surjective i
  rw [h, List.mem_map_of_injective σ.injective]

section

variable (h : Renumbers σ g g')
include h

theorem terminalRange_perm : g'.terminalRange.Perm (g.terminalRange.map σ) := by
  have hnodup : ∀ g : NumberedGrammar, g.terminalRange.Nodup := fun _ => List.nodup_range'
  refine perm_map (hnodup g) (hnodup g') fun i => ?_
  rw [NumberedGrammar.mem_terminalRange, NumberedGrammar.mem_terminalRange, h.length_eq, h.size_eq,
    h.lt_length_iff, h.lt_size_iff]

theorem map_zipIdx_perm {β : Type} {row row' : Text × ℕ → β}
    (hrow : ∀ A < g.nonterminals.length, row' (g.nameOf A, σ A) = row (g.nameOf A, A)) :
    (g'.nonterminals.zipIdx.map row').Perm (g.nonterminals.zipIdx.map row) := by
  have hrange : (List.range g.nonterminals.length).Perm
      ((List.range g.nonterminals.length).map σ) :=
    perm_map List.nodup_range List.nodup_range fun A => by
      rw [List.mem_range, List.mem_range, h.lt_length_iff]
  rw [NumberedGrammar.map_zipIdx_nonterminals, NumberedGrammar.map_zipIdx_nonterminals, h.length_eq]
  refine (hrange.map _).trans ?_
  rw [List.map_map]
  refine List.Perm.of_eq (List.map_congr_left fun A hA => ?_)
  rw [Function.comp_apply, h.nameOf_eq]
  exact hrow A (List.mem_range.1 hA)

theorem sortedNames_eq {s s' : IndexSet} (hs : ∀ t, σ t ∈ s' ↔ t ∈ s) :
    g'.sortedNames s'.toList = g.sortedNames s.toList := by
  have hperm : s'.toList.Perm (s.toList.map σ) :=
    perm_map s.ascending.nodup s'.ascending.nodup hs
  have hnames : (s.toList.map σ).map g'.nameOf = s.toList.map g.nameOf := by
    rw [List.map_map]
    exact List.map_congr_left fun i _ => h.nameOf_eq i
  rw [NumberedGrammar.sortedNames, NumberedGrammar.sortedNames, ← hnames]
  exact sortOn_eq_of_perm (hperm.map g'.nameOf) fun _ _ _ _ heq => heq

/-- **The same facts** are found about each nonterminal. -/
theorem factRows_perm (hg : g.WellFormed) (hg' : g'.WellFormed) :
    (g'.factRows g'.facts).Perm (g.factRows g.facts) := by
  refine h.map_zipIdx_perm fun A hA => ?_
  simp only
  rw [h.isNullable_eq hg hg', h.sortedNames_eq fun t => h.mem_firstOf_iff hg hg',
    h.sortedNames_eq fun t => h.mem_followOf_iff hg hg' hA]

end

section

variable {p p' : Parser} (h : Renumbers σ p.grammar p'.grammar) (hp : p.Compiled)
  (hp' : p'.Compiled)
include h hp hp'

theorem cellText?_eq (A t : ℕ) :
    p'.grammar.cellText? p'.table (σ A) (σ t) = p.grammar.cellText? p.table A t := by
  have hbody := congrArg (Option.map p'.grammar.bodyText) (h.map_body_get? hp hp' A t)
  rw [Option.map_map, Option.map_map] at hbody
  refine hbody.trans (Option.map_congr fun i _ => ?_)
  exact h.bodyText_eq _

theorem row_perm (A : ℕ) :
    (p'.grammar.terminalRange.filterMap fun t =>
      (p'.grammar.cellText? p'.table (σ A) t).map fun text => (p'.grammar.nameOf t, text)).Perm
        (p.grammar.terminalRange.filterMap fun t =>
          (p.grammar.cellText? p.table A t).map fun text => (p.grammar.nameOf t, text)) := by
  refine (h.terminalRange_perm.filterMap _).trans (List.Perm.of_eq ?_)
  rw [List.filterMap_map]
  refine List.filterMap_congr fun t _ => ?_
  rw [Function.comp_apply, h.cellText?_eq hp hp', h.nameOf_eq]

theorem filledRow_eq (hnodup : p.grammar.names.Nodup) (A : ℕ) :
    p'.grammar.filledRow p'.table (σ A) = p.grammar.filledRow p.table A := by
  have hkeys := nodup_map_sortOn_iff.1 (p.grammar.nodup_map_fst_filledRow hnodup p.table A)
  exact (sortOn_eq_of_perm (h.row_perm hp hp' A).symm (List.inj_on_of_nodup_map hkeys)).symm

/-- **The same table**, by name. -/
theorem transitions_eq (hnodup : p.grammar.names.Nodup) : p.transitions = p'.transitions := by
  have hkeys := nodup_map_sortOn_iff.1 (p.grammar.nodup_map_fst_transitions hnodup p.table)
  refine sortOn_eq_of_perm (h.map_zipIdx_perm fun A _ => ?_).symm (List.inj_on_of_nodup_map hkeys)
  exact congrArg (Prod.mk _) (h.filledRow_eq hp hp' hnodup A)

end

end Renumbers

end PredictiveParsing
