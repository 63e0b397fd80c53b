import Mathlib
import PredictiveParsing.Proofs.Numbering

/-!
# The symbols of one grammar in another

If all symbols of a grammar are symbols of another one with the same start symbol, and of the same
kind, then the numbers of the first grammar go over into those of the second one by name, and the
productions of a nonterminal go over into what the second grammar has for the same letters.

* `SymbolsKept`: the symbols of a grammar are kept by another one;
* `nameOf_renumber`, `renumber_code`, `renumber_start`, `renumber_endMark`,
  `renumber_augmentedStart`: numbers that go over into each other;
* **`renumber_lt_length_iff`**: nonterminals go over into nonterminals;
* **`bodies_renumber`**: the productions of a symbol under its two numbers.
-/

namespace PredictiveParsing

namespace Grammar

variable {g g' : Grammar} {s c : Char}

/-! ## Names and numbers -/

theorem nonterminals_number (hs : s ∈ g.nonterminals) :
    (g.number s).nonterminals = g.nonterminals.map (fun A => [A]) ++ [[s, '\'']] := by
  simp only [number, freshName_start hs]

theorem mem_nonterminals_number (hs : s ∈ g.nonterminals) :
    [c] ∈ (g.number s).nonterminals ↔ c ∈ g.nonterminals := by
  rw [nonterminals_number hs]
  simp

theorem mem_names_iff (hs : s ∈ g.nonterminals) {x : Text} : x ∈ (g.number s).names ↔
    x = [s, '\''] ∨ ∃ c, x = [c] ∧ (c = endMark ∨ g.Occurs c) := by
  constructor
  · intro hx
    rw [names_number hs, List.append_assoc, List.mem_append, List.mem_map, List.cons_append,
      List.mem_cons, List.mem_append, List.mem_map, List.mem_singleton] at hx
    rcases hx with ⟨A, hA, rfl⟩ | rfl | ⟨a, ha, rfl⟩ | rfl
    · exact Or.inr ⟨A, rfl, Or.inr (Or.inl hA)⟩
    · exact Or.inl rfl
    · exact Or.inr ⟨a, rfl, Or.inr (Or.inr (mem_terminals.1 ha).1)⟩
    · exact Or.inr ⟨endMark, rfl, Or.inl rfl⟩
  · rintro (rfl | ⟨c, rfl, hc⟩)
    · rw [names_number hs]
      simp
    · exact (mem_names_number hs).2 hc

theorem getElem?_names_code (hc : [c] ∈ (g.number s).names) :
    (g.number s).names[(g.number s).code c]? = some [c] := by
  have hlt : (g.number s).code c < (g.number s).names.length := List.idxOf_lt_length_of_mem hc
  rw [List.getElem?_eq_getElem hlt]
  exact congrArg some (List.getElem_idxOf hlt)

theorem getElem?_names_augmentedStart (hs : s ∈ g.nonterminals) :
    (g.number s).names[(g.number s).augmentedStart]? = some [s, '\''] := by
  rw [names_number hs, List.append_assoc, augmentedStart_number,
    List.getElem?_append_right (by simp)]
  simp

theorem bodies_eq_nil {A : ℕ} (hA : (g.number s).nonterminals.length ≤ A) :
    (g.number s).bodies A = [] := by
  rw [NumberedGrammar.bodies, List.getD_eq_default]
  rwa [length_productions_number]

theorem lt_length_nonterminals_iff (hs : s ∈ g.nonterminals) {i : ℕ} :
    i < (g.number s).nonterminals.length ↔ ∃ x, (g.number s).names[i]? = some x ∧
      x ∈ (g.number s).nonterminals := by
  constructor
  · intro hi
    refine ⟨(g.number s).nonterminals[i], ?_, List.getElem_mem hi⟩
    rw [NumberedGrammar.names, List.getElem?_append_left hi, List.getElem?_eq_getElem hi]
  · rintro ⟨x, hx, hmem⟩
    obtain ⟨j, hj, rfl⟩ := List.getElem_of_mem hmem
    have hname : (g.number s).names[j]? = some (g.number s).nonterminals[j] := by
      rw [NumberedGrammar.names, List.getElem?_append_left hj, List.getElem?_eq_getElem hj]
    have hlt := (List.getElem?_eq_some_iff.1 hx).1
    rwa [(List.getElem?_inj hlt (names_nodup hs)).1 (hx.trans hname.symm)]

/-! ## Symbols that are kept -/

/-- The symbols of the first grammar are symbols of the second one, and of the same kind. -/
structure SymbolsKept (g g' : Grammar) : Prop where
  occurs : ∀ c, g.Occurs c → g'.Occurs c
  mem_nonterminals_iff : ∀ c, g.Occurs c → (c ∈ g'.nonterminals ↔ c ∈ g.nonterminals)

theorem SymbolsKept.mem_names (h : SymbolsKept g g') (hs : s ∈ g.nonterminals)
    (hs' : s ∈ g'.nonterminals) {x : Text} (hx : x ∈ (g.number s).names) :
    x ∈ (g'.number s).names :=
  (mem_names_iff hs').2 (((mem_names_iff hs).1 hx).imp_right fun ⟨c, hx, hc⟩ =>
    ⟨c, hx, hc.imp_right (h.occurs c)⟩)

theorem SymbolsKept.mem_nonterminals_number_iff (h : SymbolsKept g g') (hs : s ∈ g.nonterminals)
    (hs' : s ∈ g'.nonterminals) {x : Text} (hx : x ∈ (g.number s).names) :
    x ∈ (g'.number s).nonterminals ↔ x ∈ (g.number s).nonterminals := by
  rcases (mem_names_iff hs).1 hx with rfl | ⟨c, rfl, hc⟩
  · simp [nonterminals_number hs, nonterminals_number hs']
  · rw [mem_nonterminals_number hs, mem_nonterminals_number hs']
    rcases hc with rfl | hc
    · exact iff_of_false (fun hend => ne_endMark_of_mem_nonterminals hend rfl)
        fun hend => ne_endMark_of_mem_nonterminals hend rfl
    · exact h.mem_nonterminals_iff c hc

theorem SymbolsKept.exists_renumbering (h : SymbolsKept g g') (hs : s ∈ g.nonterminals)
    (hs' : s ∈ g'.nonterminals) :
    ∃ σ : ℕ → ℕ, ∀ i, (g'.number s).names[σ i]? = (g.number s).names[i]? := by
  have hplace : ∀ i : ℕ, ∃ j : ℕ, (g'.number s).names[j]? = (g.number s).names[i]? := fun i => by
    cases hx : (g.number s).names[i]? with
    | none => exact ⟨(g'.number s).names.length, List.getElem?_eq_none le_rfl⟩
    | some x =>
      exact List.mem_iff_getElem?.1 (h.mem_names hs hs' (List.mem_of_getElem? hx))
  choose σ hσ using hplace
  exact ⟨σ, hσ⟩

section

variable (h : SymbolsKept g g') (hs : g.start? = some s) (hs' : g'.start? = some s)
  {σ : ℕ → ℕ} (hget : ∀ i, (g'.number s).names[σ i]? = (g.number s).names[i]?)
include h hs hs' hget

omit h hs hs' in
theorem nameOf_renumber (i : ℕ) : (g'.number s).nameOf (σ i) = (g.number s).nameOf i := by
  rw [NumberedGrammar.nameOf, NumberedGrammar.nameOf, List.getD_eq_getElem?_getD,
    List.getD_eq_getElem?_getD, hget]

theorem renumber_code (hc : [c] ∈ (g.number s).names) :
    σ ((g.number s).code c) = (g'.number s).code c := by
  have hmem := start_mem_nonterminals hs
  have hmem' := start_mem_nonterminals hs'
  have hname := (hget _).trans (getElem?_names_code hc)
  have hlt := (List.getElem?_eq_some_iff.1 hname).1
  exact (List.getElem?_inj hlt (names_nodup hmem')).1
    (hname.trans (getElem?_names_code (h.mem_names hmem hmem' hc)).symm)

theorem renumber_start : σ (g.number s).start = (g'.number s).start := by
  have hmem := start_mem_nonterminals hs
  have hstart := renumber_code h hs hs' hget (Occurs.mem_names hmem (Or.inl hmem))
  rwa [code_start hs, code_start hs'] at hstart

theorem renumber_endMark : σ (g.number s).endMark = (g'.number s).endMark := by
  have hmem := start_mem_nonterminals hs
  rw [← code_endMark hmem, ← code_endMark (start_mem_nonterminals hs')]
  exact renumber_code h hs hs' hget (endMark_mem_names hmem)

omit h in
theorem renumber_augmentedStart :
    σ (g.number s).augmentedStart = (g'.number s).augmentedStart := by
  have hmem := start_mem_nonterminals hs
  have hmem' := start_mem_nonterminals hs'
  have hname := (hget _).trans (getElem?_names_augmentedStart hmem)
  have hlt := (List.getElem?_eq_some_iff.1 hname).1
  exact (List.getElem?_inj hlt (names_nodup hmem')).1
    (hname.trans (getElem?_names_augmentedStart hmem').symm)

/-- **Nonterminals go over into nonterminals**, and nothing else does. -/
theorem renumber_lt_length_iff (i : ℕ) : σ i < (g'.number s).nonterminals.length ↔
    i < (g.number s).nonterminals.length := by
  have hmem := start_mem_nonterminals hs
  have hmem' := start_mem_nonterminals hs'
  rw [lt_length_nonterminals_iff hmem, lt_length_nonterminals_iff hmem', hget]
  refine exists_congr fun x => and_congr_right fun hx => ?_
  exact h.mem_nonterminals_number_iff hmem hmem' (List.mem_of_getElem? hx)

/-- **The productions of a symbol** under its two numbers are related in the same way as the
productions of its letter in the two grammars. -/
theorem bodies_renumber {R : List (List ℕ) → List (List ℕ) → Prop} (hR : ∀ bodies, R bodies bodies)
    (hproductions : ∀ A ∈ g.nonterminals,
      R ((g.productions A).map fun right => right.map (g'.number s).code)
        ((g'.productions A).map fun right => right.map (g'.number s).code)) (A : ℕ) :
    R (((g.number s).bodies A).map (List.map σ)) ((g'.number s).bodies (σ A)) := by
  have hmem := start_mem_nonterminals hs
  have hmem' := start_mem_nonterminals hs'
  have hcode := fun c => renumber_code (c := c) h hs hs' hget
  -- A nonterminal of the grammar, the augmented start behind them, and whatever has no productions.
  rcases Nat.lt_trichotomy A g.nonterminals.length with hA | rfl | hA
  · have hX := List.getElem_mem hA
    have hoccurs : g.Occurs g.nonterminals[A] := Or.inl hX
    have hX' := (h.mem_nonterminals_iff _ hoccurs).2 hX
    have hbodies := bodies_code hmem hX
    have hσ := hcode _ (hoccurs.mem_names hmem)
    rw [code_nonterminal hmem hA] at hbodies hσ
    rw [hσ, hbodies, bodies_code hmem' hX', List.map_map]
    refine Eq.subst (motive := fun bodies => R bodies _) ?_ (hproductions _ hX)
    refine List.map_congr_left fun right hright => ?_
    rw [Function.comp_apply, List.map_map]
    exact List.map_congr_left fun c hc =>
      (hcode c (Occurs.mem_names hmem (Or.inr ⟨_, right, hright, hc⟩))).symm
  · rw [← augmentedStart_number (s := s), renumber_augmentedStart hs hs' hget,
      bodies_augmentedStart, bodies_augmentedStart, List.map_singleton, List.map_cons,
      List.map_singleton, renumber_start h hs hs' hget, renumber_endMark h hs hs' hget]
    exact hR _
  · have hle : (g.number s).nonterminals.length ≤ A := by
      rw [length_nonterminals_number]
      exact hA
    have hle' : (g'.number s).nonterminals.length ≤ σ A := by
      rw [← Nat.not_lt, renumber_lt_length_iff h hs hs' hget]
      exact Nat.not_lt.2 hle
    rw [bodies_eq_nil hle, bodies_eq_nil hle', List.map_nil]
    exact hR _

end

end Grammar

end PredictiveParsing
