import Mathlib
import PredictiveParsing.Proofs.Forest.Growth
import PredictiveParsing.Proofs.Parser.Moves

/-!
# What every move preserves

At every moment the leaves of the tree, read from left to right without `ε`, are the consumed input
and then the pending symbols, and every node with children stands for a production.

* `Config.Split`: which leaves are consumed and which are pending;
* `Config.Valid`: the invariant; `valid_initial`;
* `Split.consume`, `Valid.expand`: what the two kinds of moves do; `exists_split_of_move?`: which of
  them a move is; **`valid_apply`**, `valid_moves`: the invariant along a run;
* `split_of_stop`, **`exists_split_of_parse`**: where a run comes to its end.
-/

namespace PredictiveParsing

open Forest

namespace Config

variable {g : Grammar} {s : Char} {input : Text} {c d : Config} {done : List ℕ} {ps : List Pending}

/-- The visible leaves are those of the consumed input, `done`, and those of the pending symbols,
`ps`; below the pending symbols the end mark waits. -/
structure Split (g : Grammar) (s : Char) (input : Text) (c : Config) (done : List ℕ)
    (ps : List Pending) : Prop where
  stack_eq : c.stack = ps ++ [⟨(g.number s).endMark, root⟩]
  leaves_eq : c.forest.visibleLeaves = done ++ ps.map (·.node)
  input_eq : input = done.map c.forest.label ++ c.rest
  cursor_eq : c.cursor = done.length
  consumed : ∀ i ∈ done, c.forest.label i ∈ g.terminals
  pending : ∀ e ∈ ps, g.Occurs (c.forest.label e.node) ∧
    e.symbol = (g.number s).code (c.forest.label e.node)

/-- **The invariant of a run.** The forest is a tree below the start symbol whose inner nodes stand
for productions, and its leaves are those of the consumed input and of the pending symbols. -/
structure Valid (g : Grammar) (s : Char) (input : Text) (c : Config) : Prop where
  isTree : c.forest.IsTree
  label_root : c.forest.label root = s
  expanded : ∀ i, c.forest.children i ≠ [] →
    ∃ right ∈ g.productions (c.forest.label i),
      (c.forest.children i).map c.forest.label = shown right
  split : ∃ done ps, c.Split g s input done ps

theorem valid_initial (hs : g.start? = some s) (input : Text) :
    (Config.initial (g.number s) input).Valid g s input := by
  have hmem := Grammar.start_mem_nonterminals hs
  have hlabel : (g.number s).label (g.number s).start = s := by
    rw [NumberedGrammar.start, ← Grammar.code_start hs]
    exact NumberedGrammar.label_code (Grammar.Occurs.mem_names hmem (Or.inl hmem))
  refine ⟨isTree_singleton _, hlabel, fun i hi => absurd (children_singleton _) hi,
    [], [⟨(g.number s).start, root⟩], rfl, ?_, rfl, rfl, by simp, fun e he => ?_⟩
  · refine visibleLeaves_singleton ?_
    rw [hlabel]
    exact Grammar.ne_epsilon_of_mem_nonterminals hmem
  · rw [List.mem_singleton.1 he]
    change g.Occurs ((g.number s).label (g.number s).start) ∧
      (g.number s).start = (g.number s).code ((g.number s).label (g.number s).start)
    rw [hlabel, Grammar.code_start hs]
    exact ⟨Or.inl hmem, rfl⟩

theorem Split.mem_visibleLeaves (h : c.Split g s input done ps) {i : ℕ}
    (hi : i ∈ done ∨ ∃ e ∈ ps, e.node = i) : i ∈ c.forest.visibleLeaves := by
  rw [h.leaves_eq, List.mem_append, List.mem_map]
  exact hi

theorem Split.exists_cons {top : Pending} {stack : List Pending}
    (h : c.Split g s input done ps) (hs : c.stack = top :: stack)
    (htop : top.symbol ≠ (g.number s).endMark) :
    ∃ ps', ps = top :: ps' ∧ stack = ps' ++ [⟨(g.number s).endMark, root⟩] := by
  have hstack := h.stack_eq
  rw [hs] at hstack
  cases ps with
  | nil =>
    obtain ⟨rfl, -⟩ := List.cons.inj hstack
    exact absurd rfl htop
  | cons e ps =>
    obtain ⟨rfl, htail⟩ := List.cons.inj hstack
    exact ⟨ps, rfl, htail⟩

/-! ## One move -/

theorem Split.consume {top : Pending} (h : c.Split g s input done (top :: ps)) {rest : Text}
    (hrest : c.rest = c.forest.label top.node :: rest)
    (hterm : c.forest.label top.node ∈ g.terminals) :
    c.consume.Split g s input (done ++ [top.node]) ps where
  stack_eq := by
    change c.stack.tail = _
    rw [h.stack_eq]
    rfl
  leaves_eq := by
    change c.forest.visibleLeaves = _
    rw [h.leaves_eq, List.append_assoc]
    rfl
  input_eq := by
    change input = (done ++ [top.node]).map c.forest.label ++ c.rest.tail
    rw [h.input_eq, hrest, List.map_append, List.append_assoc]
    rfl
  cursor_eq := by
    change c.cursor + 1 = _
    rw [h.cursor_eq, List.length_append, List.length_singleton]
  consumed i hi := by
    rcases List.mem_append.1 hi with hi | hi
    · exact h.consumed i hi
    · rw [List.mem_singleton.1 hi]
      exact hterm
  pending e he := h.pending e (List.mem_cons_of_mem _ he)

theorem expand_production {top : Pending} {stack : List Pending} (hs : c.stack = top :: stack)
    {right : Text} (hlabel : ∀ x ∈ right, (g.number s).label ((g.number s).code x) = x) :
    c.expand (g.number s) (right.map (g.number s).code) =
      ⟨c.cursor, c.rest, entries c.forest.size (right.map (g.number s).code) ++ stack,
        c.forest.addNodes (shown right) top.node⟩ := by
  have hmap : (right.map (g.number s).code).map (g.number s).label = right := by
    rw [List.map_map]
    exact (List.map_congr_left hlabel).trans (List.map_id right)
  rw [expand_eq hs, hmap, shown]
  by_cases h : right = []
  · rw [if_pos h, if_pos (by rw [h]; rfl)]
  · rw [if_neg h, if_neg (by simpa using h)]

theorem pending_of_mem_entries {right : Text} (hright : ∀ x ∈ right, g.Occurs x) {parent : ℕ}
    {e : Pending} (he : e ∈ entries c.forest.size (right.map (g.number s).code)) :
    g.Occurs ((c.forest.addNodes (shown right) parent).label e.node) ∧
      e.symbol = (g.number s).code ((c.forest.addNodes (shown right) parent).label e.node) := by
  have hne : right ≠ [] := by
    rintro rfl
    exact absurd he List.not_mem_nil
  have hnew := (label_addNodes (f := c.forest) right parent).2
  rw [shown, if_neg hne]
  obtain ⟨hmem, hsymbol⟩ := symbol_of_mem_entries hnew he
  exact ⟨hright _ hmem, hsymbol⟩

theorem Split.expand {top : Pending} (h : c.Split g s input done (top :: ps))
    (htree : c.forest.IsTree) {right : Text} (hs : s ∈ g.nonterminals)
    (hright : right ∈ g.productions (c.forest.label top.node)) :
    (c.expand (g.number s) (right.map (g.number s).code)).Split g s input done
      (entries c.forest.size (right.map (g.number s).code) ++ ps) := by
  have hoccurs : ∀ x ∈ right, g.Occurs x := fun x hx => Or.inr ⟨_, right, hright, hx⟩
  have hε := Grammar.epsilon_notMem_of_mem_productions hright
  have hlt : ∀ i, (i ∈ done ∨ ∃ e ∈ top :: ps, e.node = i) → i < c.forest.size := fun i hi =>
    (htree.mem_visibleLeaves.1 (h.mem_visibleLeaves hi)).1
  have hold := (label_addNodes (f := c.forest) (shown right) top.node).1
  rw [expand_production h.stack_eq fun x hx =>
    NumberedGrammar.label_code ((hoccurs x hx).mem_names hs)]
  refine ⟨by rw [List.append_assoc]; rfl, ?_, ?_, h.cursor_eq, fun i hi => ?_, fun e he => ?_⟩
  · have hleaves := h.leaves_eq
    rw [List.map_cons] at hleaves
    rw [htree.visibleLeaves_addNodes hleaves hε, List.map_append, map_node_entries,
      List.length_map, List.append_assoc]
  · change input = done.map (c.forest.addNodes (shown right) top.node).label ++ c.rest
    rw [List.map_congr_left fun i hi => hold i (hlt i (Or.inl hi))]
    exact h.input_eq
  · change (c.forest.addNodes (shown right) top.node).label i ∈ g.terminals
    rw [hold i (hlt i (Or.inl hi))]
    exact h.consumed i hi
  · change g.Occurs ((c.forest.addNodes (shown right) top.node).label e.node) ∧
      e.symbol = (g.number s).code ((c.forest.addNodes (shown right) top.node).label e.node)
    rcases List.mem_append.1 he with he | he
    · exact pending_of_mem_entries hoccurs he
    · have he := List.mem_cons_of_mem top he
      rw [hold _ (hlt _ (Or.inr ⟨e, he, rfl⟩))]
      exact h.pending e he

theorem Valid.expanded_addNodes (h : c.Valid g s input) {node : ℕ} (hnode : node < c.forest.size)
    (hleaf : c.forest.children node = []) {right : Text}
    (hright : right ∈ g.productions (c.forest.label node)) (i : ℕ)
    (hi : (c.forest.addNodes (shown right) node).children i ≠ []) :
    ∃ right' ∈ g.productions ((c.forest.addNodes (shown right) node).label i),
      ((c.forest.addNodes (shown right) node).children i).map
        (c.forest.addNodes (shown right) node).label = shown right' := by
  obtain ⟨hold, hnew⟩ := label_addNodes (f := c.forest) (shown right) node
  rw [children_addNodes hnode] at hi ⊢
  by_cases hin : i = node
  · rw [if_pos hin, hin, hleaf, List.nil_append, hold node hnode]
    exact ⟨right, hright, hnew⟩
  · rw [if_neg hin] at hi ⊢
    obtain ⟨j, hj⟩ := List.exists_mem_of_ne_nil _ hi
    obtain ⟨right', hright', hchildren⟩ := h.expanded i hi
    rw [hold i (lt_of_mem_children_self hj)]
    refine ⟨right', hright', ?_⟩
    rw [← hchildren]
    exact List.map_congr_left fun k hk => hold k (h.isTree.lt_of_mem_children hk)

theorem Valid.expand {top : Pending} (h : c.Valid g s input) (hs : s ∈ g.nonterminals)
    (hsplit : c.Split g s input done (top :: ps)) {right : Text}
    (hright : right ∈ g.productions (c.forest.label top.node)) :
    (c.expand (g.number s) (right.map (g.number s).code)).Valid g s input := by
  obtain ⟨hnode, hleaf, -⟩ := h.isTree.mem_visibleLeaves.1
    (hsplit.mem_visibleLeaves (Or.inr ⟨top, List.mem_cons_self, rfl⟩))
  have hsplit' := hsplit.expand h.isTree hs hright
  rw [expand_production hsplit.stack_eq fun x hx => NumberedGrammar.label_code
    (Grammar.Occurs.mem_names hs (Or.inr ⟨_, right, hright, hx⟩))] at hsplit' ⊢
  refine ⟨h.isTree.addNodes hnode hleaf _, ?_, h.expanded_addNodes hnode hleaf hright, _, _,
    hsplit'⟩
  rw [← h.label_root]
  exact (label_addNodes (shown right) top.node).1 root (Nat.zero_lt_of_lt hnode)

end Config

namespace Parser

open Config

variable {p : Parser} {g : Grammar} {s : Char} {input : Text} {c d : Config} {n : ℕ}

theorem exists_production (hp : p.Compiled) (hg : p.grammar = g.number s) (hs : s ∈ g.nonterminals)
    {x l : Char} {i : ℕ} (hx : g.Occurs x)
    (hterm : p.grammar.isTerminal ((g.number s).code x) = false)
    (hi : p.choice? ((g.number s).code x) l = some i) :
    ∃ right ∈ g.productions x,
      right.map (g.number s).code = p.grammar.body ((g.number s).code x) i := by
  obtain ⟨t, -, hget⟩ := Option.bind_eq_some_iff.1 hi
  have hbody := (hp.mem_rules_of_get? hget).1
  rw [hg, ← Bool.not_eq_true, Grammar.isTerminal_code hs (hx.mem_names hs), not_not] at hterm
  rw [hg] at hbody ⊢
  rwa [NumberedGrammar.mem_rules, Grammar.bodies_code hs hterm, List.mem_map] at hbody

theorem exists_rest_of_lookahead (hp : p.Compiled) (hg : p.grammar = g.number s)
    (hs : s ∈ g.nonterminals) {x : Char} (hx : g.Occurs x)
    (hl : p.grammar.indexOf? [c.lookahead] = some ((g.number s).code x)) (hend : x ≠ endMark) :
    ∃ rest, c.rest = x :: rest := by
  have hname := hx.mem_names hs
  have hne : (g.number s).code x ≠ p.grammar.endMark := by
    rw [hg, ← Grammar.code_endMark hs, Ne,
      NumberedGrammar.code_inj hname (Grammar.endMark_mem_names hs)]
    exact hend
  have hrest := hp.rest_eq_cons hl hne
  rw [hg] at hl
  obtain ⟨hlook, hcode⟩ := NumberedGrammar.indexOf?_eq_some hl
  rw [NumberedGrammar.code_inj hname hlook] at hcode
  exact ⟨c.rest.tail, by rw [hcode, ← hrest]⟩

/-- **A move** expands the first pending symbol by a production of the grammar, or consumes it as the
next symbol of the input. -/
theorem exists_split_of_move? (hp : p.Compiled) (hg : p.grammar = g.number s)
    (hs : s ∈ g.nonterminals) (h : c.Valid g s input) {m : Move} (hm : p.move? c = .ok m) :
    ∃ done top ps, c.Split g s input done (top :: ps) ∧
      ((∃ i, m = .expand top.symbol i c.lookahead ∧
          ∃ right ∈ g.productions (c.forest.label top.node),
            right.map (g.number s).code = p.grammar.body top.symbol i) ∨
        (m = .consume top.symbol c.cursor ∧ c.forest.label top.node ∈ g.terminals ∧
          ∃ rest, c.rest = c.forest.label top.node :: rest)) := by
  obtain ⟨done, ps, hsplit⟩ := h.split
  obtain ⟨top, stack, hstack, hend, hmove⟩ := move?_eq_ok hm
  rw [hg] at hend
  obtain ⟨ps, rfl, -⟩ := hsplit.exists_cons hstack hend
  obtain ⟨hoccurs, hsymbol⟩ := hsplit.pending top List.mem_cons_self
  refine ⟨done, top, ps, hsplit, ?_⟩
  rw [hsymbol] at hmove ⊢
  rcases hmove with ⟨hX, i, hi, rfl⟩ | ⟨ha, hl, rfl⟩
  · exact Or.inl ⟨i, rfl, exists_production hp hg hs hoccurs hX hi⟩
  · rw [hg, Grammar.isTerminal_code hs (hoccurs.mem_names hs)] at ha
    have hne : c.forest.label top.node ≠ endMark := by
      intro hlabel
      rw [hsymbol, hlabel, Grammar.code_endMark hs] at hend
      exact hend rfl
    exact Or.inr ⟨rfl, Grammar.mem_terminals.2 ⟨hoccurs.resolve_left ha, hne, ha⟩,
      exists_rest_of_lookahead hp hg hs hoccurs hl hne⟩

/-- **Every move preserves the invariant.** -/
theorem valid_apply (hp : p.Compiled) (hg : p.grammar = g.number s) (hs : s ∈ g.nonterminals)
    (h : c.Valid g s input) {m : Move} (hm : p.move? c = .ok m) :
    (c.apply p.grammar m).Valid g s input := by
  obtain ⟨done, top, ps, hsplit, ⟨i, rfl, right, hright, hbody⟩ | ⟨rfl, hterm, rest, hrest⟩⟩ :=
    exists_split_of_move? hp hg hs h hm
  · change (c.expand p.grammar (p.grammar.body _ i)).Valid g s input
    rw [← hbody, hg]
    exact h.expand hs hsplit hright
  · exact ⟨h.isTree, h.label_root, h.expanded, _, _, hsplit.consume hrest hterm⟩

theorem valid_moves (hp : p.Compiled) (hg : p.grammar = g.number s) (hs : g.start? = some s)
    (h : p.Moves n (.initial p.grammar input) c) : c.Valid g s input := by
  have hmem := Grammar.start_mem_nonterminals hs
  refine h.invariant (fun c m hc hm => valid_apply hp hg hmem hc hm) ?_
  rw [hg]
  exact valid_initial hs input

theorem split_of_stop (hg : p.grammar = g.number s) (hs : s ∈ g.nonterminals) {done : List ℕ}
    {ps : List Pending} (h : c.Split g s input done ps) (hstop : p.move? c = .error .atEndMark) :
    ps = [] ∨ ∃ e ps', ps = e :: ps' ∧ c.forest.label e.node = endMark := by
  cases ps with
  | nil => exact Or.inl rfl
  | cons e ps =>
    refine Or.inr ⟨e, ps, rfl, ?_⟩
    obtain ⟨hoccurs, hsymbol⟩ := h.pending e List.mem_cons_self
    rcases move?_eq_atEndMark hstop with hstack | ⟨top, stack, hstack, hend⟩
    · rw [h.stack_eq] at hstack
      cases hstack
    · rw [h.stack_eq] at hstack
      obtain ⟨rfl, -⟩ := List.cons.inj hstack
      rw [hsymbol, hg, ← Grammar.code_endMark hs,
        NumberedGrammar.code_inj (hoccurs.mem_names hs) (Grammar.endMark_mem_names hs)] at hend
      exact hend

/-- **The forest of a successful parse.** Its leaves are the input, and after it, if `$` stopped the
run inside a production, the symbols that were still pending. -/
theorem exists_split_of_parse (hp : p.Compiled) (hg : p.grammar = g.number s)
    (hs : g.start? = some s) {f : Forest} (h : p.parse input = .ok f) :
    ∃ (c : Config) (done : List ℕ) (ps : List Pending), c.Valid g s input ∧
      c.Split g s input done ps ∧ c.forest = f ∧ done.map f.label = input ∧
      (ps = [] ∨ ∃ e ps', ps = e :: ps' ∧ f.label e.node = endMark) := by
  obtain ⟨n, c, hmoves, hstop, hcursor, rfl⟩ := parse_eq_ok h
  have hvalid := valid_moves hp hg hs hmoves
  obtain ⟨done, ps, hsplit⟩ := hvalid.split
  have hinput := hsplit.input_eq
  have hlength := congrArg List.length hinput
  rw [List.length_append, List.length_map, ← hsplit.cursor_eq, hcursor] at hlength
  have hrest : c.rest = [] := List.length_eq_zero_iff.1 (by omega)
  rw [hrest, List.append_nil] at hinput
  exact ⟨c, done, ps, hvalid, hsplit, rfl, hinput.symm,
    split_of_stop hg (Grammar.start_mem_nonterminals hs) hsplit hstop⟩

end Parser

end PredictiveParsing
