import Mathlib
import PredictiveParsing.Proofs.DerivationTrees
import PredictiveParsing.Proofs.Parser.Invariant

/-!
# Parsed inputs and their trees

Where no symbol is pending at the end of a run, the forest is a complete derivation tree whose
frontier is the input.

* `Forest.IsParse`: the forest is a derivation tree of an input, node by node;
* **`Valid.isParse`**: a valid configuration without pending symbols has such a forest;
* **`parse_sound`**: so does every successful parse, if `$` is in no production;
* `IsParse.isDerivation_tree`: the tree of such a forest.
-/

namespace PredictiveParsing

open Forest

variable {g : Grammar} {s : Char} {input : Text} {f : Forest}

/-- The nodes of the forest make up a complete derivation tree of an input: all of them hang below
the start symbol, below each nonterminal stand the symbols of one of its productions, or one `ε` if
it is empty, and the leaves are terminals or such an `ε`. -/
structure Forest.IsParse (f : Forest) (g : Grammar) (input : Text) : Prop where
  start : g.start? = some (f.label root)
  reachable : ∀ i < f.size, Relation.ReflTransGen (fun j i => i ∈ f.children j) root i
  expanded : ∀ i, f.children i ≠ [] → f.label i ∈ g.nonterminals ∧
    ((f.children i).map f.label ∈ g.productions (f.label i) ∨
      ((f.children i).map f.label = [epsilon] ∧ [] ∈ g.productions (f.label i)))
  leaf : ∀ i < f.size, f.children i = [] → f.label i ∈ g.terminals ∨
    (f.label i = epsilon ∧ ∃ j, f.children j = [i] ∧ [] ∈ g.productions (f.label j))
  frontier_eq : f.frontier = input

namespace Config

variable {c : Config} {done : List ℕ} {ps : List Pending}

theorem Valid.exists_parent (h : c.Valid g s input) (hs : s ≠ epsilon) {i : ℕ}
    (hi : i < c.forest.size) (hε : c.forest.label i = epsilon) :
    ∃ j, c.forest.children j = [i] ∧ [] ∈ g.productions (c.forest.label j) := by
  rcases Relation.ReflTransGen.cases_tail (h.isTree.reachable hi) with rfl | ⟨j, -, hj⟩
  · exact absurd (h.label_root.symm.trans hε) hs
  · obtain ⟨right, hright, hchildren⟩ := h.expanded j (List.ne_nil_of_mem hj)
    have hmem : epsilon ∈ shown right := by
      rw [← hchildren, ← hε]
      exact List.mem_map_of_mem hj
    have hnil : right = [] := by
      by_contra hne
      rw [shown, if_neg hne] at hmem
      exact Grammar.epsilon_notMem_of_mem_productions hright hmem
    rw [hnil] at hchildren hright
    obtain ⟨k, hk, -⟩ := List.map_eq_singleton_iff.1 hchildren
    rw [hk, List.mem_singleton] at hj
    exact ⟨j, hj ▸ hk, hright⟩

/-- **Without pending symbols the forest is a parse** of the consumed input. -/
theorem Valid.isParse (h : c.Valid g s input) (hs : g.start? = some s)
    (hsplit : c.Split g s input done []) (hinput : done.map c.forest.label = input) :
    c.forest.IsParse g input where
  start := by rw [hs, h.label_root]
  reachable _ hi := h.isTree.reachable hi
  expanded i hi := by
    obtain ⟨right, hright, hchildren⟩ := h.expanded i hi
    refine ⟨Grammar.mem_nonterminals_of_mem_productions hright, ?_⟩
    rw [hchildren, shown]
    split
    · next hnil => exact Or.inr ⟨rfl, hnil ▸ hright⟩
    · exact Or.inl hright
  leaf i hi hleaf := by
    by_cases hε : c.forest.label i = epsilon
    · have hne := Grammar.ne_epsilon_of_mem_nonterminals (Grammar.start_mem_nonterminals hs)
      exact Or.inr ⟨hε, h.exists_parent hne hi hε⟩
    · have hmem := h.isTree.mem_visibleLeaves.2 ⟨hi, hleaf, hε⟩
      rw [hsplit.leaves_eq, List.map_nil, List.append_nil] at hmem
      exact Or.inl (hsplit.consumed i hmem)
  frontier_eq := by
    rw [frontier_eq, hsplit.leaves_eq, List.map_nil, List.append_nil, hinput]

end Config

/-! ## Trees -/

theorem Forest.IsParse.eq_nil_of_epsilon (h : f.IsParse g input) {i : ℕ} {ts : List (Tree ℕ)}
    (ht : (Tree.node i ts).Unfolds f.children) (hε : f.label i = epsilon) : ts = [] := by
  by_contra hts
  have hi : f.children i ≠ [] := by
    rw [ht.next_eq]
    simpa using hts
  exact Grammar.ne_epsilon_of_mem_nonterminals (h.expanded i hi).1 hε

theorem Forest.IsParse.isDerivation (h : f.IsParse g input) {t : Tree ℕ}
    (ht : t.Unfolds f.children) (hsize : ∀ i ∈ t.labels, i < f.size)
    (hε : f.label t.label ≠ epsilon) : (t.map f.label).IsDerivation g := by
  induction t using Tree.induction with
  | node i ts ih =>
    have hi : f.children i = ts.map Tree.label := ht.next_eq
    have hlabels : (f.children i).map f.label = (ts.map (Tree.map f.label)).map Tree.label := by
      rw [hi, List.map_map, List.map_map]
      exact List.map_congr_left fun t _ => (Tree.label_map f.label t).symm
    rw [Tree.map_node]
    by_cases hts : ts = []
    · rw [hts] at hi ⊢
      have hterm := (h.leaf i (hsize i (Tree.label_mem_labels _)) hi).resolve_right
        fun hleaf => hε hleaf.1
      exact .terminal _ (Grammar.mem_terminals.1 hterm).2.2 hε
    · have hne : f.children i ≠ [] := by
        rw [hi]
        simpa using hts
      rcases (h.expanded i hne).2 with hright | ⟨hchildren, hnil⟩
      · have hrightε := Grammar.epsilon_notMem_of_mem_productions hright
        rw [hlabels] at hright
        have htree := Tree.IsDerivation.ofProduction hright fun v hv => by
          obtain ⟨u, hu, rfl⟩ := List.mem_map.1 hv
          refine ih u hu (ht.of_mem hu) (fun j hj => hsize j ?_) ?_
          · rw [Tree.labels_node]
            exact List.mem_cons_of_mem _ (List.mem_flatMap.2 ⟨u, hu, hj⟩)
          · refine ne_of_mem_of_not_mem (List.mem_map_of_mem ?_) hrightε
            rw [hi]
            exact List.mem_map_of_mem hu
        rwa [Tree.ofProduction, if_neg (by simpa using hts)] at htree
      · -- The production is empty, and the only child is a leaf labelled `ε`.
        rw [hi, List.map_map, List.map_eq_singleton_iff] at hchildren
        obtain ⟨⟨j, us⟩, rfl, hj⟩ := hchildren
        replace hj : f.label j = epsilon := hj
        obtain rfl := h.eq_nil_of_epsilon (ht.of_mem List.mem_cons_self) hj
        rw [List.map_singleton, Tree.map_node, hj]
        exact .vanish _ hnil

theorem Forest.IsParse.isDerivation_tree (h : f.IsParse g input) (htree : f.IsTree) :
    f.tree.IsDerivation g ∧ g.start? = some f.tree.label ∧ f.tree.frontier = input := by
  refine ⟨?_, ?_, htree.frontier_tree.trans h.frontier_eq⟩
  · obtain ⟨t, ht, hroot, hperm⟩ := htree
    rw [tree_eq ht hroot (size_eq_of_perm hperm).le]
    refine h.isDerivation ht (fun i hi => List.mem_range.1 (hperm.mem_iff.1 hi)) ?_
    rw [hroot]
    exact Grammar.ne_epsilon_of_mem_nonterminals (Grammar.start_mem_nonterminals h.start)
  · obtain ⟨t, ht, hroot, hperm⟩ := htree
    rw [tree_eq ht hroot (size_eq_of_perm hperm).le, Tree.label_map, hroot]
    exact h.start

/-! ## Soundness -/

/-- **A successful parse is sound**, if `$` is in no production: the forest is a complete derivation
tree from the start symbol, and its frontier is the input. -/
theorem Parser.parse_sound {p : Parser} (h : g.compile = .ok p)
    (hrules : ∀ r ∈ g.rules, endMark ∉ r.right) (hf : p.parse input = .ok f) :
    f.IsParse g input := by
  obtain ⟨s, hs, hg, hp⟩ := Grammar.compile_eq_ok h
  obtain ⟨c, done, ps, hvalid, hsplit, rfl, hinput, hps⟩ := exists_split_of_parse hp hg hs hf
  rcases hps with rfl | ⟨e, ps, rfl, hlabel⟩
  · exact hvalid.isParse hs hsplit hinput
  · have hoccurs := (hsplit.pending e List.mem_cons_self).1
    rw [hlabel] at hoccurs
    rcases hoccurs with hmem | ⟨A, right, hright, hmem⟩
    · exact absurd rfl (Grammar.ne_endMark_of_mem_nonterminals hmem)
    · obtain ⟨r, hr, -, rfl⟩ := Grammar.mem_productions.1 hright
      exact absurd hmem (hrules r hr)

/-- The nonterminal `S`. -/
def Nonterminal.letterS : Nonterminal := ⟨'S', by decide, by decide⟩

/-- `S → a S b | ε`. -/
def Grammar.nested : Grammar where
  rules := [.ofText .letterS ['a', 'S', 'b'], .ofText .letterS []]

theorem Parser.exists_parse_nested :
    ∃ p f, Grammar.nested.compile = .ok p ∧ p.parse ['a', 'b'] = .ok f :=
  exists_parse (by decide +kernel)

theorem Parser.parse_sound_nested : ∃ p f, Grammar.nested.compile = .ok p ∧
    (∀ r ∈ Grammar.nested.rules, endMark ∉ r.right) ∧ p.parse ['a', 'b'] = .ok f ∧
    f.IsParse Grammar.nested ['a', 'b'] := by
  obtain ⟨p, f, hp, hf⟩ := exists_parse_nested
  have hrules : ∀ r ∈ Grammar.nested.rules, endMark ∉ r.right := by decide
  exact ⟨p, f, hp, hrules, hf, parse_sound hp hrules hf⟩

end PredictiveParsing
