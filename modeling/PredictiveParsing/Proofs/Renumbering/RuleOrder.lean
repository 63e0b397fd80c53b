import Mathlib
import PredictiveParsing.Proofs.Renumbering.Reports
import PredictiveParsing.Proofs.Renumbering.Runs
import PredictiveParsing.Proofs.Renumbering.Symbols

/-!
# The order of rules

A grammar whose rules are given in another order has the same symbols under other numbers. As long
as its first rule is for the same nonterminal, it is the same grammar to its users: it compiles or
is ambiguous, and its facts, its table and its trees are the same.

* `position`, `renumbering`: the number that a symbol gets in another list of names;
* `nonterminals_perm`, `terminals_perm`, `names_perm`: the symbols of a grammar in another order;
* **`renumbers_of_perm`**: the numbered forms of the two grammars;
* **`rules_perm`**: what does not depend on the order of rules.
-/

namespace PredictiveParsing

/-! ## Positions in another order -/

section

variable {xs ys : List Text}

/-- The position in `ys` of the entry at a position of `xs`. What is no position of `xs` is kept. -/
def position (xs ys : List Text) (i : ℕ) : ℕ := (xs[i]?.map ys.idxOf).getD i

theorem getElem?_position (h : xs.Perm ys) (i : ℕ) : ys[position xs ys i]? = xs[i]? := by
  rw [position]
  cases hx : xs[i]? with
  | none =>
    rw [Option.map_none, Option.getD_none, List.getElem?_eq_none_iff, ← h.length_eq]
    exact List.getElem?_eq_none_iff.1 hx
  | some x =>
    have hlt := List.idxOf_lt_length_of_mem (h.mem_iff.1 (List.mem_of_getElem? hx))
    rw [Option.map_some, Option.getD_some, List.getElem?_eq_getElem hlt, List.getElem_idxOf]

theorem position_position (hnodup : xs.Nodup) (h : xs.Perm ys) (i : ℕ) :
    position ys xs (position xs ys i) = i := by
  have hback := (getElem?_position h.symm _).trans (getElem?_position h i)
  cases hx : xs[i]? with
  | none =>
    have hi : position xs ys i = i := by rw [position, hx]; rfl
    have hy : ys[i]? = none := by
      rw [List.getElem?_eq_none_iff, ← h.length_eq]
      exact List.getElem?_eq_none_iff.1 hx
    rw [hi, position, hy]
    rfl
  | some x =>
    have hlt := (List.getElem?_eq_some_iff.1 hx).1
    exact ((List.getElem?_inj hlt hnodup).1 hback.symm).symm

/-- The numbers of symbols in another list of the same names. -/
def renumbering (hxs : xs.Nodup) (h : xs.Perm ys) : Equiv.Perm ℕ where
  toFun := position xs ys
  invFun := position ys xs
  left_inv := position_position hxs h
  right_inv := position_position (h.nodup_iff.1 hxs) h.symm

end

/-! ## The same rules in another order -/

namespace Grammar

variable {g g' : Grammar} {s : Char}

section

variable (h : g.rules.Perm g'.rules)
include h

theorem nonterminals_perm : g.nonterminals.Perm g'.nonterminals := by
  have hnodup : ∀ g : Grammar, g.nonterminals.Nodup := fun g => nodup_distinct _
  refine (List.perm_ext_iff_of_nodup (hnodup g) (hnodup g')).2 fun A => ?_
  simp only [mem_nonterminals, h.mem_iff]

theorem terminals_perm : g.terminals.Perm g'.terminals := by
  have hnodup : ∀ g : Grammar, g.terminals.Nodup := fun g => nodup_distinct _
  refine (List.perm_ext_iff_of_nodup (hnodup g) (hnodup g')).2 fun c => ?_
  simp only [mem_terminals, mem_productions, h.mem_iff, (nonterminals_perm h).mem_iff]

theorem productions_perm (A : Char) : (g.productions A).Perm (g'.productions A) :=
  (h.filter _).map _

theorem names_perm (hs : s ∈ g.nonterminals) (hs' : s ∈ g'.nonterminals) :
    (g.number s).names.Perm (g'.number s).names := by
  rw [names_number hs, names_number hs']
  exact (((nonterminals_perm h).map _).append (((terminals_perm h).map _).cons _)).append_right _

end

theorem symbolsKept_of_perm (h : g.rules.Perm g'.rules) : SymbolsKept g g' where
  occurs _ := Or.imp (nonterminals_perm h).mem_iff.1 fun ⟨A, right, hright, hc⟩ =>
    ⟨A, right, (productions_perm h A).mem_iff.1 hright, hc⟩
  mem_nonterminals_iff _ _ := (nonterminals_perm h).mem_iff.symm

theorem nonterminals_number_perm (h : g.rules.Perm g'.rules) (hs : s ∈ g.nonterminals)
    (hs' : s ∈ g'.nonterminals) :
    (g.number s).nonterminals.Perm (g'.number s).nonterminals := by
  simp only [number, freshName_start hs, freshName_start hs']
  exact ((nonterminals_perm h).map _).append_right _

section

variable (h : g.rules.Perm g'.rules) (hs : g.start? = some s) (hs' : g'.start? = some s)
  {σ : Equiv.Perm ℕ} (hget : ∀ i, (g'.number s).names[σ i]? = (g.number s).names[i]?)
include h hs hs' hget

theorem bodies_perm (A : ℕ) :
    ((g'.number s).bodies (σ A)).Perm (((g.number s).bodies A).map (List.map σ)) :=
  bodies_renumber (R := fun bodies bodies' => bodies'.Perm bodies) (symbolsKept_of_perm h) hs hs'
    hget .refl (fun A _ => (productions_perm h A).symm.map _) A

end

/-- **The same rules in another order** make the same grammar under other numbers. -/
theorem renumbers_of_perm (h : g.rules.Perm g'.rules) (hs : g.start? = some s)
    (hs' : g'.start? = some s) : ∃ σ, Renumbers σ (g.number s) (g'.number s) := by
  have hmem := start_mem_nonterminals hs
  have hmem' := start_mem_nonterminals hs'
  have hnames := names_perm h hmem hmem'
  have hlength := (nonterminals_number_perm h hmem hmem').length_eq
  have hkept := symbolsKept_of_perm h
  obtain ⟨σ, hget⟩ : ∃ σ : Equiv.Perm ℕ,
      ∀ i, (g'.number s).names[σ i]? = (g.number s).names[i]? :=
    ⟨renumbering (names_nodup hmem) hnames, getElem?_position hnames⟩
  refine ⟨σ, {
    size_eq := hnames.length_eq.symm
    length_eq := hlength.symm
    start_eq := renumber_start hkept hs hs' hget
    endMark_eq := renumber_endMark hkept hs hs' hget
    bodies_perm := bodies_perm h hs hs' hget
    nameOf_eq := nameOf_renumber hget
    indexOf?_eq := fun name => ?_
    lt_size_iff := fun i => ?_
    lt_length_iff := fun i => ?_ }⟩
  · refine Option.ext fun j => ?_
    obtain ⟨i, rfl⟩ := σ.surjective j
    rw [NumberedGrammar.indexOf?, idxOf?_eq_some_iff (names_nodup hmem'), hget,
      Option.map_eq_some_iff, ← idxOf?_eq_some_iff (names_nodup hmem)]
    constructor
    · exact fun hi => ⟨i, hi, rfl⟩
    · rintro ⟨k, hk, heq⟩
      rwa [σ.injective heq] at hk
  · have hnone : (g'.number s).names[σ i]? = none ↔ (g.number s).names[i]? = none := by rw [hget]
    rw [List.getElem?_eq_none_iff, List.getElem?_eq_none_iff, ← hnames.length_eq] at hnone
    exact lt_iff_lt_of_le_iff_le hnone
  · rw [hlength]
    exact (renumber_lt_length_iff hkept hs hs' hget i).trans (by rw [hlength])

/-! ## What does not depend on the order of rules -/

/-- **The order of rules does not matter**, if the first rules are for the same nonterminal. The
facts about each nonterminal are the same by name. Either both grammars compile, and then their
tables are the same by name, and every input has the same tree, node for node, or the same error; or
both are ambiguous. -/
theorem rules_perm (h : g.rules.Perm g'.rules) (hs : g.start? = some s)
    (hs' : g'.start? = some s) :
    (∃ n n', g.number? = some n ∧ g'.number? = some n' ∧ n.nonterminals.Nodup ∧
      (n.factRows n.facts).Perm (n'.factRows n'.facts)) ∧
    ((∃ p p', g.compile = .ok p ∧ g'.compile = .ok p' ∧ p.transitions = p'.transitions ∧
        ∀ input, p.parse input = p'.parse input) ∨
      ((∃ A t body, g.compile = .error (.ambiguous A t body)) ∧
        ∃ A t body, g'.compile = .error (.ambiguous A t body))) := by
  have hmem := start_mem_nonterminals hs
  have hmem' := start_mem_nonterminals hs'
  have hn : g.number? = some (g.number s) := by rw [number?, hs]; rfl
  have hn' : g'.number? = some (g'.number s) := by rw [number?, hs']; rfl
  have hwf := wellFormed_number (g := g) hmem
  have hwf' := wellFormed_number (g := g') hmem'
  obtain ⟨σ, hσ⟩ := renumbers_of_perm h hs hs'
  have hcompile : (∃ p, g.compile = .ok p) ↔ ∃ p', g'.compile = .ok p' := by
    rw [exists_compile_iff hn, exists_compile_iff hn', hσ.exists_table_iff hwf hwf']
  refine ⟨⟨_, _, hn, hn', ?_, (hσ.factRows_perm hwf hwf').symm⟩, ?_⟩
  · exact (List.nodup_append.1 (names_nodup hmem)).1
  by_cases hok : ∃ p, g.compile = .ok p
  · obtain ⟨p, hp⟩ := hok
    obtain ⟨p', hp'⟩ := hcompile.1 ⟨p, hp⟩
    obtain ⟨t, ht, hg, hcompiled⟩ := compile_eq_ok hp
    obtain ⟨t', ht', hg', hcompiled'⟩ := compile_eq_ok hp'
    obtain rfl := Option.some.inj (hs.symm.trans ht)
    obtain rfl := Option.some.inj (hs'.symm.trans ht')
    rw [← hg, ← hg'] at hσ
    refine Or.inl ⟨p, p', hp, hp', hσ.transitions_eq hcompiled hcompiled' ?_, fun input => ?_⟩
    · rw [hg]
      exact names_nodup hmem
    · exact (hσ.parse_eq hcompiled hcompiled' input).symm
  · refine Or.inr ⟨(exists_ambiguous_iff hn).2 hok, (exists_ambiguous_iff hn').2 ?_⟩
    exact fun hok' => hok (hcompile.2 hok')

/-- `P → Q R c`, `R → ε | b`, `Q → ε | a`: all rules but the first are the other way round. -/
def optionalReversed : Grammar where
  rules := optional.rules.take 1 ++ (optional.rules.drop 1).reverse

/-- Both parsers find the same tree of `bc` and the same error in `ba`. -/
theorem rules_perm_optional : optional.rules.Perm optionalReversed.rules ∧
    optional.start? = some 'P' ∧ optionalReversed.start? = some 'P' ∧
    ∃ p p', optional.compile = .ok p ∧ optionalReversed.compile = .ok p' ∧
      p.transitions = p'.transitions ∧ p.parse ['b', 'c'] = p'.parse ['b', 'c'] ∧
      p.parse ['b', 'a'] = p'.parse ['b', 'a'] := by
  have hperm : optional.rules.Perm optionalReversed.rules := by decide
  obtain ⟨p, hp⟩ := exists_compile (g := optional) (by decide +kernel)
  obtain ⟨-, ⟨q, q', hq, hq', htable, hparse⟩ | ⟨⟨_, _, _, herror⟩, -⟩⟩ :=
    rules_perm (s := 'P') hperm rfl rfl
  · exact ⟨hperm, rfl, rfl, q, q', hq, hq', htable, hparse _, hparse _⟩
  · rw [hp] at herror
    cases herror

end Grammar

end PredictiveParsing
