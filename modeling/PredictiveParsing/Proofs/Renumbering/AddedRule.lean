import Mathlib
import PredictiveParsing.Proofs.Renumbering.Reports
import PredictiveParsing.Proofs.Renumbering.Symbols

/-!
# One more rule

A rule that is added to a grammar moves the numbers of its symbols, and the facts are computed from
nothing again. Still nothing is lost by it, as long as no terminal becomes a nonterminal: the old
grammar is part of the new one.

* `start?_add`, `mem_nonterminals_add`, `productions_sublist_add`: the views of the larger grammar;
* `symbolsKept_add`, **`exists_embeds_add`**: the old grammar is part of the new one;
* `FactRow.Within`, `Embeds.exists_factRow`: a row of the report goes over into a larger one;
* **`addRule_monotone`**: more facts by name, and a conflict remains one.
-/

namespace PredictiveParsing

/-! ## Larger reports -/

/-- The second row is about the same nonterminal, and it holds all that the first one holds. -/
structure FactRow.Within (row row' : FactRow) : Prop where
  name_eq : row'.name = row.name
  nullable : row.nullable = true → row'.nullable = true
  first_subset : row.first ⊆ row'.first
  follow_subset : row.follow ⊆ row'.follow

namespace Embeds

variable {σ : ℕ → ℕ} {g g' : NumberedGrammar}

theorem sortedNames_subset (h : Embeds σ g g') {is js : List ℕ} (hsub : ∀ i ∈ is, σ i ∈ js) :
    g.sortedNames is ⊆ g'.sortedNames js := by
  intro name hname
  obtain ⟨i, hi, rfl⟩ := List.mem_map.1 (mem_sortOn.1 hname)
  rw [← h.nameOf_eq]
  exact mem_sortOn.2 (List.mem_map_of_mem (hsub i hi))

theorem exists_factRow (h : Embeds σ g g') (hg : g.WellFormed) (hg' : g'.WellFormed)
    {row : FactRow} (hrow : row ∈ g.factRows g.facts) :
    ∃ row' ∈ g'.factRows g'.facts, row.Within row' := by
  rw [NumberedGrammar.factRows, NumberedGrammar.map_zipIdx_nonterminals] at hrow ⊢
  obtain ⟨A, hA, rfl⟩ := List.mem_map.1 hrow
  rw [List.mem_range] at hA
  refine ⟨_, List.mem_map_of_mem (List.mem_range.2 (h.lt_length hA)), ?_⟩
  exact {
    name_eq := h.nameOf_eq A
    nullable := h.isNullable hg hg'
    first_subset := h.sortedNames_subset fun _ => h.mem_firstOf hg hg'
    follow_subset := h.sortedNames_subset fun _ => h.mem_followOf hg hg' hA }

end Embeds

/-! ## The larger grammar -/

namespace Grammar

variable {g g' : Grammar} {s X : Char} {r : Rule} {p : Text}

theorem start?_add (hs : g.start? = some s) : (g.add r).start? = some s := by
  obtain ⟨first, hfirst, rfl⟩ := Option.map_eq_some_iff.1 hs
  rw [start?, rules_add, List.head?_append, hfirst]
  rfl

theorem mem_nonterminals_add {c : Char} :
    c ∈ (g.add r).nonterminals ↔ c ∈ g.nonterminals ∨ r.left.char = c := by
  simp only [mem_nonterminals, rules_add, List.mem_append, List.mem_singleton, or_and_right,
    exists_or, exists_eq_left]

theorem productions_sublist_add (A : Char) :
    (g.productions A).Sublist ((g.add r).productions A) :=
  ((List.sublist_append_left g.rules [r]).filter _).map _

theorem symbolsKept_add (hr : r.left.char ∈ g.nonterminals ∨ ¬ g.Occurs r.left.char) :
    SymbolsKept g (g.add r) where
  occurs _ := Or.imp (fun hc => mem_nonterminals_add.2 (Or.inl hc)) fun ⟨A, right, hright, hc⟩ =>
    ⟨A, right, (productions_sublist_add A).mem hright, hc⟩
  mem_nonterminals_iff c hc := by
    rw [mem_nonterminals_add, or_iff_left_iff_imp]
    rintro rfl
    exact hr.resolve_right (not_not.2 hc)

/-- **The grammar without the rule** is part of the one with it. -/
theorem exists_embeds_add (hr : r.left.char ∈ g.nonterminals ∨ ¬ g.Occurs r.left.char)
    (hs : g.start? = some s) : ∃ σ, Embeds σ (g.number s) ((g.add r).number s) := by
  have hkept := symbolsKept_add hr
  have hs' : (g.add r).start? = some s := start?_add hs
  obtain ⟨σ, hget⟩ :=
    hkept.exists_renumbering (start_mem_nonterminals hs) (start_mem_nonterminals hs')
  refine ⟨σ, {
    nameOf_eq := nameOf_renumber hget
    isTerminal_eq := fun i => ?_
    bodies_subperm := bodies_renumber hkept hs hs' hget List.Subperm.refl fun A _ =>
      ((productions_sublist_add A).map _).subperm }⟩
  rw [Bool.eq_iff_iff, NumberedGrammar.isTerminal_iff, NumberedGrammar.isTerminal_iff,
    ← Nat.not_lt, ← Nat.not_lt, renumber_lt_length_iff hkept hs hs' hget]

/-- **One more rule takes nothing away.** A rule can be added for a nonterminal, and for a symbol
that is neither part of the grammar nor reserved. What is nullable stays so, the FIRST and FOLLOW
sets lose no name, and a grammar that is ambiguous stays ambiguous. -/
theorem addRule_monotone (h : g.rules ≠ [])
    (hX : X ∈ g.nonterminals ∨ ¬ g.Occurs X ∧ X ≠ endMark ∧ X ≠ epsilon) :
    ∃ g' n n', g.addRule? X p = .ok g' ∧ g.number? = some n ∧ g'.number? = some n' ∧
      n'.nonterminals.Nodup ∧
      (∀ row ∈ n.factRows n.facts, ∃ row' ∈ n'.factRows n'.facts, row.Within row') ∧
      ((∃ A t body, g.compile = .error (.ambiguous A t body)) →
        ∃ A t body, g'.compile = .error (.ambiguous A t body)) := by
  obtain ⟨A, rfl⟩ : ∃ A : Nonterminal, A.char = X := by
    rcases hX with hX | ⟨-, hend, hepsilon⟩
    · exact ⟨⟨X, ne_endMark_of_mem_nonterminals hX, ne_epsilon_of_mem_nonterminals hX⟩, rfl⟩
    · exact ⟨⟨X, hend, hepsilon⟩, rfl⟩
  obtain ⟨s, hs⟩ := exists_start? h
  have hs' : (g.add (.ofText A p)).start? = some s := start?_add hs
  have hg := wellFormed_number (start_mem_nonterminals hs)
  have hg' := wellFormed_number (start_mem_nonterminals hs')
  have hn := number?_eq_some hs
  have hn' := number?_eq_some hs'
  obtain ⟨σ, hσ⟩ := exists_embeds_add (r := .ofText A p) (hX.imp_right And.left) hs
  refine ⟨_, _, _, ?_, hn, hn', ?_, fun row hrow => hσ.exists_factRow hg hg' hrow, ?_⟩
  · rw [addRule?, Nonterminal.ofChar?_eq_some_iff.2 rfl]
  · exact (List.nodup_append.1 (names_nodup (start_mem_nonterminals hs'))).1
  · rw [exists_ambiguous_iff hn, exists_ambiguous_iff hn', exists_compile_iff hn,
      exists_compile_iff hn', NumberedGrammar.exists_table_iff_not_overlap hg,
      NumberedGrammar.exists_table_iff_not_overlap hg']
    exact mt (hσ.not_overlap hg hg')

/-- `K → Lm | l`, `L → l | ε`: both productions of `K` are for `l`. -/
def doubleLetter : Grammar where
  rules := [.ofText ⟨'K', by decide, by decide⟩ ['L', 'm'],
    .ofText ⟨'K', by decide, by decide⟩ ['l'], .ofText ⟨'L', by decide, by decide⟩ ['l'],
    .ofText ⟨'L', by decide, by decide⟩ []]

/-- The rule `N → KnL` is for a new symbol and moves all terminals up. -/
theorem addRule_monotone_doubleLetter : doubleLetter.rules ≠ [] ∧
    (¬ doubleLetter.Occurs 'N' ∧ 'N' ≠ endMark ∧ 'N' ≠ epsilon) ∧
    ∃ g' n', doubleLetter.addRule? 'N' ['K', 'n', 'L'] = .ok g' ∧ g'.number? = some n' ∧
      (∃ row ∈ n'.factRows n'.facts, (⟨['L'], true, [['l']], [['m']]⟩ : FactRow).Within row) ∧
      ∃ A t body, g'.compile = .error (.ambiguous A t body) := by
  have hoccurs : ¬ doubleLetter.Occurs 'N' := fun hN =>
    absurd (hN.mem_names (s := 'K') (by decide)) (by decide +kernel)
  have hX : ¬ doubleLetter.Occurs 'N' ∧ 'N' ≠ endMark ∧ 'N' ≠ epsilon :=
    ⟨hoccurs, by decide, by decide⟩
  obtain ⟨g', n, n', hg', hn, hn', -, hrows, hambiguous⟩ :=
    addRule_monotone (g := doubleLetter) (p := ['K', 'n', 'L']) (by decide) (Or.inr hX)
  have hstart : doubleLetter.number? = some (doubleLetter.number 'K') := rfl
  obtain rfl := Option.some.inj (hstart.symm.trans hn)
  refine ⟨by decide, hX, g', n', hg', hn', hrows _ (by decide +kernel), hambiguous ?_⟩
  exact ⟨['K'], ['l'], ['l'], by decide +kernel⟩

end Grammar

end PredictiveParsing
