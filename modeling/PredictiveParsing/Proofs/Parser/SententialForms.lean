import Mathlib
import PredictiveParsing.Proofs.Derivations
import PredictiveParsing.Proofs.Parser.Soundness

/-!
# Sentential forms of a run

At every moment of a run the consumed input and then the pending symbols are a form that the start
symbol and the end mark derive, always at the first nonterminal. The tree spells the same form with
its leaves, and every pending symbol has a leaf of its own: so a run builds its tree from the left.

* `Grammar.ProducesLeft`, `Grammar.DerivesLeft`: leftmost derivations;
* `Config.form`: the form of a configuration; `form_expand`, `form_consume`: how moves change it;
* `Split.form_eq`, `Split.find?_leaves`: the form and the first nonterminal in the leaves of the
  tree;
* `Config.Spells`: what the stack, the form and the tree have to do with each other; `Split.spells`;
* `Parser.Leftmost`: the part of a move in a leftmost derivation; **`leftmost_of_move?`**: every move
  has it; `derivesLeft_of_moves`;
* **`leftmost_of_moves`**: the form, the stack and the tree after any number of moves.
-/

namespace PredictiveParsing

open Forest

/-! ## Leftmost derivations -/

/-- One step of a leftmost derivation: the first nonterminal is replaced by one of its
productions. -/
inductive Grammar.ProducesLeft (g : Grammar) : Text → Text → Prop where
  | replace {before : Text} {A : Char} {right : Text} (after : Text)
    (hbefore : ∀ a ∈ before, a ∉ g.nonterminals) (h : right ∈ g.productions A) :
    ProducesLeft g (before ++ A :: after) (before ++ right ++ after)

/-- Any number of steps of a leftmost derivation. -/
def Grammar.DerivesLeft (g : Grammar) : Text → Text → Prop := Relation.ReflTransGen g.ProducesLeft

theorem Grammar.DerivesLeft.derives {g : Grammar} {u v : Text} (h : g.DerivesLeft u v) :
    g.Derives u v := by
  induction h with
  | refl => exact .refl u
  | tail _ hstep ih =>
    obtain ⟨after, -, hright⟩ := hstep
    exact ih.tail (.replace _ after hright)

/-! ## The form of a configuration -/

namespace Config

variable {g : Grammar} {n : NumberedGrammar} {s : Char} {input : Text} {c : Config}
  {top : Pending} {stack ps : List Pending} {done : List ℕ}

/-- The consumed input, and then the pending symbols. -/
def form (c : Config) (n : NumberedGrammar) (input : Text) : Text :=
  input.take c.cursor ++ c.symbols.map n.label

theorem form_of_cons (hs : c.stack = top :: stack) : c.form n input =
    input.take c.cursor ++ n.label top.symbol :: (stack.map (·.symbol)).map n.label := by
  rw [form, symbols_of_cons hs, List.map_cons]

theorem form_expand (hs : c.stack = top :: stack) (body : List ℕ) :
    (c.expand n body).form n input =
      input.take c.cursor ++ body.map n.label ++ (stack.map (·.symbol)).map n.label := by
  have hcursor : (c.expand n body).cursor = c.cursor := by rw [expand_eq hs]
  rw [form, symbols_expand hs, hcursor, List.map_append, List.append_assoc]

theorem form_consume (hs : c.stack = top :: stack) (hdrop : input.drop c.cursor = c.rest)
    {rest : Text} (hrest : c.rest = n.label top.symbol :: rest) :
    c.consume.form n input = c.form n input := by
  have hnext : input[c.cursor]? = some (n.label top.symbol) := by
    rw [← List.head?_drop, hdrop, hrest, List.head?_cons]
  rw [form, symbols_consume hs, form_of_cons hs]
  change input.take (c.cursor + 1) ++ _ = _
  rw [List.take_add_one, hnext, Option.toList_some, List.append_assoc, List.singleton_append]

/-! ## The form in the tree -/

theorem Split.take_cursor (h : c.Split g s input done ps) :
    input.take c.cursor = done.map c.forest.label := by
  rw [h.input_eq]
  exact List.take_left' (by rw [List.length_map, h.cursor_eq])

theorem Split.drop_cursor (h : c.Split g s input done ps) : input.drop c.cursor = c.rest := by
  rw [h.input_eq]
  exact List.drop_left' (by rw [List.length_map, h.cursor_eq])

theorem Split.notMem_nonterminals (h : c.Split g s input done ps) {i : ℕ} (hi : i ∈ done) :
    c.forest.label i ∉ g.nonterminals :=
  (Grammar.mem_terminals.1 (h.consumed i hi)).2.2

theorem Split.nameOf_symbol (h : c.Split g s input done ps) (hs : s ∈ g.nonterminals) {e : Pending}
    (he : e ∈ ps) : (g.number s).nameOf e.symbol = [c.forest.label e.node] := by
  obtain ⟨hoccurs, hsymbol⟩ := h.pending e he
  rw [hsymbol]
  exact NumberedGrammar.nameOf_code (hoccurs.mem_names hs)

theorem Split.label_symbol (h : c.Split g s input done ps) (hs : s ∈ g.nonterminals) {e : Pending}
    (he : e ∈ ps) : (g.number s).label e.symbol = c.forest.label e.node := by
  rw [NumberedGrammar.label, h.nameOf_symbol hs he, List.headD_cons]

/-- **The leaves of the tree** spell the form, except for its last symbol. -/
theorem Split.form_eq (h : c.Split g s input done ps) (hs : s ∈ g.nonterminals) :
    c.form (g.number s) input = c.forest.frontier ++ [endMark] := by
  have hend : (g.number s).label (g.number s).endMark = endMark := by
    rw [← Grammar.code_endMark hs]
    exact NumberedGrammar.label_code (Grammar.endMark_mem_names hs)
  rw [form, symbols, h.take_cursor, h.stack_eq, List.map_map, List.map_append, List.map_singleton,
    Function.comp_apply, hend, frontier_eq, h.leaves_eq, List.map_append, List.map_map,
    List.append_assoc]
  exact congrArg (fun labels => done.map c.forest.label ++ (labels ++ [endMark]))
    (List.map_congr_left fun e he => h.label_symbol hs he)

/-- **The first leaf with a nonterminal** is that of the first pending symbol, if this is a
nonterminal. -/
theorem Split.find?_leaves (h : c.Split g s input done (top :: ps))
    (htop : c.forest.label top.node ∈ g.nonterminals) :
    c.forest.leaves.find? (fun i => c.forest.label i ∈ g.nonterminals) = some top.node := by
  have hvisible : c.forest.leaves.find? (fun i => c.forest.label i ∈ g.nonterminals) =
      c.forest.visibleLeaves.find? fun i => c.forest.label i ∈ g.nonterminals := by
    rw [visibleLeaves, List.find?_filter]
    congr 1
    funext i
    have hε := Grammar.ne_epsilon_of_mem_nonterminals (g := g) (A := c.forest.label i)
    by_cases hi : c.forest.label i ∈ g.nonterminals
    · simp [hi, hε hi]
    · simp [hi]
  have hdone : done.find? (fun i => c.forest.label i ∈ g.nonterminals) = none := by
    rw [List.find?_eq_none]
    intro i hi
    simpa using h.notMem_nonterminals hi
  rw [hvisible, h.leaves_eq, List.find?_append, hdone, Option.none_or, List.map_cons,
    List.find?_cons_of_pos (by simpa using htop)]

theorem Split.sublist_leaves (h : c.Split g s input done ps) :
    (ps.map (·.node)).Sublist c.forest.leaves := by
  have hvisible : c.forest.visibleLeaves.Sublist c.forest.leaves := List.filter_sublist
  rw [h.leaves_eq] at hvisible
  exact (List.sublist_append_right _ _).trans hvisible

end Config

/-- **What a configuration spells**, if the symbols of `ps` are pending. The form is derived from the
start symbol and the end mark, and it is the frontier of the tree with the end mark behind it; every
pending symbol has a leaf that is labelled with it, and these leaves stand in the tree in the order
in which the symbols are pending. -/
structure Config.Spells (g : Grammar) (s : Char) (n : NumberedGrammar) (input : Text) (c : Config)
    (ps : List Pending) : Prop where
  stack_eq : c.stack = ps ++ [⟨n.endMark, root⟩]
  cursor_le : c.cursor ≤ input.length
  derives : g.DerivesLeft [s, endMark] (c.form n input)
  form_eq : c.form n input = c.forest.frontier ++ [endMark]
  leaf : ∀ e ∈ ps, e.node < c.forest.size ∧ c.forest.children e.node = [] ∧
    n.nameOf e.symbol = [c.forest.label e.node]
  inOrder : (ps.map (·.node)).Sublist c.forest.leaves
  nodup : c.forest.leaves.Nodup

theorem Config.Split.spells {g : Grammar} {s : Char} {input : Text} {c : Config} {done : List ℕ}
    {ps : List Pending} (h : c.Split g s input done ps) (htree : c.forest.IsTree)
    (hs : s ∈ g.nonterminals) (hder : g.DerivesLeft [s, endMark] (c.form (g.number s) input)) :
    c.Spells g s (g.number s) input ps where
  stack_eq := h.stack_eq
  cursor_le := by
    rw [h.cursor_eq, h.input_eq, List.length_append, List.length_map]
    exact Nat.le_add_right _ _
  derives := hder
  form_eq := h.form_eq hs
  leaf e he := by
    obtain ⟨hlt, hleaf, -⟩ := htree.mem_visibleLeaves.1 (h.mem_visibleLeaves (Or.inr ⟨e, he, rfl⟩))
    exact ⟨hlt, hleaf, h.nameOf_symbol hs he⟩
  inOrder := h.sublist_leaves
  nodup := htree.nodup_leaves

/-! ## Moves -/

namespace Parser

open Config

variable {p : Parser} {g : Grammar} {s : Char} {input : Text} {c : Config} {k : ℕ}

/-- **The part of a move in a leftmost derivation.** An expansion replaces the first nonterminal of
the form, and in the tree it is made at the first leaf that is labelled with a nonterminal; consuming
a symbol leaves the form as it is. -/
def Leftmost (p : Parser) (g : Grammar) (input : Text) (c : Config) : Move → Prop
  | .expand A i l =>
    g.ProducesLeft (c.form p.grammar input)
        ((c.apply p.grammar (.expand A i l)).form p.grammar input) ∧
      ∃ top, c.stack.head? = some top ∧ top.symbol = A ∧
        c.forest.leaves.find? (fun i => c.forest.label i ∈ g.nonterminals) = some top.node
  | .consume a i =>
    (c.apply p.grammar (.consume a i)).form p.grammar input = c.form p.grammar input

/-- **Every move** goes on with the leftmost derivation. -/
theorem leftmost_of_move? (hp : p.Compiled) (hg : p.grammar = g.number s) (hs : s ∈ g.nonterminals)
    (h : c.Valid g s input) {m : Move} (hm : p.move? c = .ok m) : p.Leftmost g input c m := by
  obtain ⟨done, top, ps, hsplit, hmove⟩ := exists_split_of_move? hp hg hs h hm
  have hlabel := hsplit.label_symbol hs List.mem_cons_self
  rcases hmove with ⟨i, rfl, right, hright, hbody⟩ | ⟨rfl, -, rest, hrest⟩
  · have hnames : ∀ a ∈ right, [a] ∈ (g.number s).names := fun a ha =>
      Grammar.Occurs.mem_names hs (Or.inr ⟨_, right, hright, ha⟩)
    refine ⟨?_, top, by rw [hsplit.stack_eq]; rfl, rfl,
      hsplit.find?_leaves (Grammar.mem_nonterminals_of_mem_productions hright)⟩
    change g.ProducesLeft _ ((c.expand p.grammar (p.grammar.body top.symbol i)).form _ _)
    rw [form_expand hsplit.stack_eq, form_of_cons hsplit.stack_eq, ← hbody, hg,
      Grammar.map_label_code hnames, hlabel, hsplit.take_cursor]
    refine .replace _ (fun a ha => ?_) hright
    obtain ⟨j, hj, rfl⟩ := List.mem_map.1 ha
    exact hsplit.notMem_nonterminals hj
  · rw [← hlabel, ← hg] at hrest
    exact form_consume hsplit.stack_eq hsplit.drop_cursor hrest

theorem Leftmost.derivesLeft {m : Move} (h : p.Leftmost g input c m) {v : Text}
    (hder : g.DerivesLeft v (c.form p.grammar input)) :
    g.DerivesLeft v ((c.apply p.grammar m).form p.grammar input) := by
  cases m with
  | expand A i l => exact hder.tail h.1
  | consume a i =>
    rw [Leftmost] at h
    rwa [h]

theorem symbols_initial (hg : p.grammar = g.number s) (hs : g.start? = some s) :
    (Config.initial p.grammar input).symbols = [s, endMark].map p.grammar.code := by
  rw [hg, List.map_cons, List.map_singleton, Grammar.code_start hs,
    Grammar.code_endMark (Grammar.start_mem_nonterminals hs)]
  rfl

/-- **The form after any number of moves** is derived from the start symbol and the end mark. -/
theorem derivesLeft_of_moves (hp : p.Compiled) (hg : p.grammar = g.number s)
    (hs : g.start? = some s) (h : p.Moves k (.initial p.grammar input) c) :
    g.DerivesLeft [s, endMark] (c.form p.grammar input) := by
  have hmem := Grammar.start_mem_nonterminals hs
  refine (h.invariant
    (P := fun c => c.Valid g s input ∧ g.DerivesLeft [s, endMark] (c.form p.grammar input))
    (fun c m hc hm => ⟨valid_apply hp hg hmem hc.1 hm,
      (leftmost_of_move? hp hg hmem hc.1 hm).derivesLeft hc.2⟩) ⟨?_, ?_⟩).2
  · rw [hg]
    exact valid_initial hs input
  · have hform : (Config.initial p.grammar input).form p.grammar input = [s, endMark] := by
      rw [form, symbols_initial hg hs, hg, Grammar.map_label_code (Grammar.mem_names_start hmem)]
      rfl
    rw [hform]
    exact .refl

/-- **A run builds its tree from the left.** After any number of moves, the consumed input and the
pending symbols are a form of a leftmost derivation from the start symbol and the end mark, the tree
spells this form with its leaves, and every pending symbol has a leaf of its own; the next move goes
on with the leftmost derivation. -/
theorem leftmost_of_moves (h : g.compile = .ok p)
    (hmoves : p.Moves k (.initial p.grammar input) c) :
    ∃ s ps, g.start? = some s ∧ c.Spells g s p.grammar input ps ∧
      ∀ m, p.move? c = .ok m → p.Leftmost g input c m := by
  obtain ⟨s, hs, hg, hp⟩ := Grammar.compile_eq_ok h
  have hmem := Grammar.start_mem_nonterminals hs
  have hvalid := valid_moves hp hg hs hmoves
  have hder := derivesLeft_of_moves hp hg hs hmoves
  obtain ⟨done, ps, hsplit⟩ := hvalid.split
  refine ⟨s, ps, hs, ?_, fun m hm => leftmost_of_move? hp hg hmem hvalid hm⟩
  rw [hg] at hder ⊢
  exact hsplit.spells hvalid.isTree hmem hder

/-- `S → a S $ b | ε`. -/
def interleaved : Grammar where
  rules := [.ofText .letterS ['a', 'S', '$', 'b'], .ofText .letterS []]

/-- On `aa`, four moves lead to the form `aaS$b$b$`, in which two symbols are consumed and `S` is
expanded next. -/
theorem leftmost_of_moves_interleaved : ∃ p k c, interleaved.compile = .ok p ∧
    p.Moves k (.initial p.grammar ['a', 'a']) c ∧
    c.form p.grammar ['a', 'a'] = ['a', 'a', 'S', '$', 'b', '$', 'b', '$'] ∧
    ∃ s ps, interleaved.start? = some s ∧ c.Spells interleaved s p.grammar ['a', 'a'] ps ∧
      ∀ m, p.move? c = .ok m → p.Leftmost interleaved ['a', 'a'] c m := by
  have hform : (interleaved.compile.map fun p =>
      (p.runFrom 4 (.initial p.grammar ['a', 'a']) []).last.form p.grammar ['a', 'a']) =
      .ok ['a', 'a', 'S', '$', 'b', '$', 'b', '$'] := by
    decide +kernel
  obtain ⟨p, hp⟩ := Grammar.exists_compile (g := interleaved) (by decide +kernel)
  rw [hp] at hform
  obtain ⟨k, hmoves, -⟩ := moves_runFrom p 4 (.initial p.grammar ['a', 'a']) []
  exact ⟨p, k, _, hp, hmoves, Except.ok.inj hform, leftmost_of_moves hp hmoves⟩

end Parser

end PredictiveParsing
