import Mathlib
import PredictiveParsing.Proofs.Parser.Soundness
import PredictiveParsing.Proofs.Parser.Termination
import PredictiveParsing.Proofs.Parser.TreeFacts

/-!
# The parser finds every derivation tree

Given a derivation tree, the parser expands each nonterminal as the tree does, as the table has
no other production for the next symbol. So it accepts what the tree derives, and no other tree
derives the same.

* **`exists_moves_of_reading`**, `exists_moves_of_trees`: the moves that trees side by side give
  rise to;
* **`eq_of_frontier_eq`**: trees that derive the same are the same;
* `Compiled.parse_of_isDerivation`: the input that a tree derives is accepted;
* **`parse_complete`**: completeness and unambiguity.
-/

namespace PredictiveParsing.Parser

open PredictiveParsing.Tree

variable {p : Parser} {g : Grammar} {s A : Char} {t : Tree Char} {ts cs : List (Tree Char)}

/-! ## Trees that the parser can follow -/

/-- Derivation trees over the symbols of the grammar, each followed by a symbol that can follow its
root. -/
structure Ready (p : Parser) (g : Grammar) (s : Char) (ts : List (Tree Char)) : Prop where
  isDerivation : ∀ t ∈ ts, t.IsDerivation g
  occurs : ∀ t ∈ ts, g.Occurs t.label
  follow : p.Follow g s ts

theorem Ready.of_cons (h : p.Ready g s (t :: ts)) : p.Ready g s ts where
  isDerivation u hu := h.isDerivation u (List.mem_cons_of_mem _ hu)
  occurs u hu := h.occurs u (List.mem_cons_of_mem _ hu)
  follow := h.follow.2

section

variable (hp : p.Compiled) (hg : p.grammar = g.number s) (hs : s ∈ g.nonterminals)
include hp hg hs

theorem Ready.covers (h : p.Ready g s ts) : ∀ t ∈ ts, p.Covers g s t := fun t ht =>
  covers_of_isDerivation hp hg hs (h.isDerivation t ht) (h.occurs t ht)

theorem Ready.indexOf?_nextSymbol (h : p.Ready g s ts) :
    p.grammar.indexOf? [nextSymbol ts] = some ((g.number s).code (nextSymbol ts)) := by
  rw [hg]
  refine NumberedGrammar.indexOf?_code ((Grammar.mem_names_number hs).2 ?_)
  rw [nextSymbol]
  cases hfrontier : ts.flatMap frontier with
  | nil => exact Or.inl rfl
  | cons a w =>
    refine Or.inr (occurs_all (h.covers hp hg hs) a ?_)
    rw [hfrontier]
    exact List.mem_cons_self

/-- **The children of the first tree** can be put in its place, and its production claims the next
symbol. -/
theorem Ready.expand (h : p.Ready g s (ofProduction A cs :: ts))
    (hcs : ∀ c ∈ cs, c.IsDerivation g) (hright : cs.map label ∈ g.productions A) :
    p.Ready g s (cs ++ ts) ∧ ((g.number s).code A, roots g s cs) ∈ p.grammar.rules ∧
      (g.number s).code (nextSymbol (cs ++ ts)) ∈
        p.facts.claimed ((g.number s).code A) (roots g s cs) := by
  have hA := h.follow.1 (Grammar.mem_nonterminals_of_mem_productions hright)
  have hrule := production_mem_rules hg hs hright
  have hoccurs : ∀ c ∈ cs, g.Occurs c.label := fun c hc =>
    Or.inr ⟨A, _, hright, List.mem_map_of_mem hc⟩
  have hcovers : ∀ c ∈ cs, p.Covers g s c := fun c hc =>
    covers_of_isDerivation hp hg hs (hcs c hc) (hoccurs c hc)
  refine ⟨⟨fun c hc => ?_, fun c hc => ?_, ?_⟩, hrule, mem_claimed hcovers hA⟩
  · exact (List.mem_append.1 hc).elim (hcs c) (h.of_cons.isDerivation c)
  · exact (List.mem_append.1 hc).elim (hoccurs c) (h.of_cons.occurs c)
  · exact follow_append (u := []) hp hg hs hrule (fun c hc => ⟨hcovers c hc, hoccurs c hc⟩) hA
      h.of_cons.follow

/-! ## Moves along trees -/

/-- The stack holds the roots of the trees above the end mark, and what they derive is the rest of
the input. -/
structure Awaits (p : Parser) (g : Grammar) (s : Char) (ts : List (Tree Char)) (c : Config) :
    Prop where
  stack : c.stack.map (·.symbol) = roots g s ts ++ [p.grammar.endMark]
  rest : c.rest = ts.flatMap frontier

omit hp hg hs in
theorem Awaits.lookahead_eq {c : Config} (h : p.Awaits g s (ofProduction A cs :: ts) c) :
    c.lookahead = nextSymbol (cs ++ ts) := by
  rw [Config.lookahead, h.rest, nextSymbol, List.flatMap_cons, frontier_ofProduction,
    List.flatMap_append]

theorem Awaits.expand {c : Config} (h : p.Awaits g s (ofProduction A cs :: ts) c)
    (hready : p.Ready g s (ofProduction A cs :: ts)) (hcs : ∀ c ∈ cs, c.IsDerivation g)
    (hright : cs.map label ∈ g.productions A) :
    ∃ d, p.Moves 1 c d ∧ p.Awaits g s (cs ++ ts) d := by
  obtain ⟨hready', hrule, hclaimed⟩ := hready.expand hp hg hs hcs hright
  have hrest : c.rest = (cs ++ ts).flatMap frontier := by
    rw [h.rest, List.flatMap_cons, frontier_ofProduction, List.flatMap_append]
  have hl := hready'.indexOf?_nextSymbol hp hg hs
  rw [← h.lookahead_eq] at hl hclaimed
  obtain ⟨top, stack, hstack, htop, hsymbols⟩ := List.map_eq_cons_iff.1 h.stack
  replace htop : top.symbol = (g.number s).code A := htop
  replace hsymbols : stack.map (·.symbol) = roots g s ts ++ [p.grammar.endMark] := hsymbols
  rw [← htop] at hrule hclaimed
  obtain ⟨d, hd, hdstack, hdrest⟩ := exists_expand hp hstack hl hrule hclaimed
  refine ⟨d, hd, ?_, hdrest.trans hrest⟩
  rw [hdstack, List.map_append, map_symbol_entries, hsymbols, roots_append, List.append_assoc]

omit hp in
theorem Awaits.consume {a : Char} {c : Config} (h : p.Awaits g s (node a [] :: ts) c)
    (hready : p.Ready g s (node a [] :: ts)) (ha : a ∉ g.nonterminals) (hε : a ≠ epsilon)
    (hend : a ≠ endMark) : ∃ d, p.Moves 1 c d ∧ p.Awaits g s ts d := by
  have hrest : c.rest = a :: ts.flatMap frontier := by
    rw [h.rest, List.flatMap_cons, frontier_leaf hε, List.singleton_append]
  have hname : [a] ∈ (g.number s).names := (hready.occurs _ List.mem_cons_self).mem_names hs
  obtain ⟨top, stack, hstack, htop, hsymbols⟩ := List.map_eq_cons_iff.1 h.stack
  replace htop : top.symbol = (g.number s).code a := htop
  have hne : top.symbol ≠ p.grammar.endMark := by
    rw [htop, hg, ← Grammar.code_endMark hs, Ne,
      NumberedGrammar.code_inj hname (Grammar.endMark_mem_names hs)]
    exact hend
  have hterm : p.grammar.isTerminal top.symbol = true := by
    rw [htop, hg]
    exact (Grammar.isTerminal_code hs hname).2 ha
  have hl : p.grammar.indexOf? [c.lookahead] = some top.symbol := by
    rw [htop, hg, Config.lookahead, hrest]
    exact NumberedGrammar.indexOf?_code hname
  refine ⟨_, .single (move?_consume hstack hne hterm hl), ?_, ?_⟩
  · change c.stack.tail.map (·.symbol) = roots g s ts ++ [p.grammar.endMark]
    rw [hstack]
    exact hsymbols
  · change c.rest.tail = ts.flatMap frontier
    rw [hrest]
    rfl

/-- **The moves along trees**: the parser takes the first tree apart as it is read, and consumes
what the trees derive. -/
theorem exists_moves_of_reading {us : List (Tree Char)} (h : Reading g ts us)
    (hready : p.Ready g s ts) (hend : endMark ∉ ts.flatMap frontier) {c : Config}
    (hc : p.Awaits g s ts c) :
    p.Ready g s us ∧ ∃ n d, p.Moves n c d ∧ p.Awaits g s us d := by
  induction h generalizing c with
  | refl => exact ⟨hready, 0, c, .refl c, hc⟩
  | terminal a ha hε _ ih =>
    rw [List.flatMap_cons, List.mem_append, not_or, frontier_leaf hε, List.mem_singleton] at hend
    obtain ⟨d, hd, hawaits⟩ := hc.consume hg hs hready ha hε (Ne.symm hend.1)
    obtain ⟨hready', n, e, he, hlast⟩ := ih hready.of_cons hend.2 hawaits
    exact ⟨hready', 1 + n, e, hd.trans he, hlast⟩
  | expand A cs hright hder _ ih =>
    rw [List.flatMap_cons, frontier_ofProduction, ← List.flatMap_append] at hend
    obtain ⟨d, hd, hawaits⟩ := hc.expand hp hg hs hready hder hright
    obtain ⟨hready', n, e, he, hlast⟩ := ih (hready.expand hp hg hs hder hright).1 hend hawaits
    exact ⟨hready', 1 + n, e, hd.trans he, hlast⟩

theorem exists_moves_of_trees (hready : p.Ready g s ts) (hend : endMark ∉ ts.flatMap frontier)
    {c : Config} (hc : p.Awaits g s ts c) : ∃ n d, p.Moves n c d ∧ p.Awaits g s [] d := by
  have hreading := reading_of_isDerivation hready.isDerivation []
  rw [List.append_nil] at hreading
  exact (exists_moves_of_reading hp hg hs hreading hready hend hc).2

/-! ## No two trees -/

theorem Ready.right_eq {ts' cs' : List (Tree Char)} (h : p.Ready g s (ofProduction A cs :: ts))
    (h' : p.Ready g s (ofProduction A cs' :: ts')) (hcs : ∀ c ∈ cs, c.IsDerivation g)
    (hcs' : ∀ c ∈ cs', c.IsDerivation g) (hright : cs.map label ∈ g.productions A)
    (hright' : cs'.map label ∈ g.productions A)
    (hfrontier : (cs ++ ts).flatMap frontier = (cs' ++ ts').flatMap frontier) :
    cs.map label = cs'.map label := by
  obtain ⟨-, hrule, hclaimed⟩ := h.expand hp hg hs hcs hright
  obtain ⟨-, hrule', hclaimed'⟩ := h'.expand hp hg hs hcs' hright'
  -- Both productions claim the symbol that comes next.
  rw [nextSymbol, hfrontier, ← nextSymbol] at hclaimed
  have hroots := hp.eq_of_mem_claimed hrule hrule' hclaimed hclaimed'
  rw [roots_eq, roots_eq] at hroots
  have hback : ∀ right ∈ g.productions A,
      (right.map (g.number s).code).map (g.number s).label = right := by
    intro right hright
    rw [List.map_map]
    refine (List.map_congr_left fun x hx => ?_).trans (List.map_id right)
    exact NumberedGrammar.label_code (Grammar.Occurs.mem_names hs (Or.inr ⟨A, right, hright, hx⟩))
  rw [← hback _ hright, ← hback _ hright', hroots]

/-- **Trees that derive the same are the same**, if they have the same roots. -/
theorem eq_of_frontier_eq {ts' : List (Tree Char)} (h : p.Ready g s ts) (h' : p.Ready g s ts')
    (hlabel : ts.map label = ts'.map label)
    (hfrontier : ts.flatMap frontier = ts'.flatMap frontier) : ts = ts' := by
  induction flat_of_isDerivation h.isDerivation generalizing ts' with
  | nil => exact (List.map_eq_nil_iff.1 hlabel.symm).symm
  | terminal a ts ha hε _ ih =>
    obtain ⟨t', ts', rfl, ht', hrest⟩ := List.map_eq_cons_iff.1 hlabel.symm
    rcases (h'.isDerivation t' List.mem_cons_self).eq_ofProduction with
      ⟨b, -, -, rfl⟩ | ⟨B, cs', hB, -, -, rfl⟩
    · obtain rfl : b = a := ht'
      rw [List.flatMap_cons, List.flatMap_cons, List.append_cancel_left_eq] at hfrontier
      rw [ih h.of_cons h'.of_cons hrest.symm hfrontier]
    · obtain rfl : B = a := ht'
      exact absurd (Grammar.mem_nonterminals_of_mem_productions hB) ha
  | expand A cs ts hA below _ ih =>
    obtain ⟨t', ts', rfl, ht', hrest⟩ := List.map_eq_cons_iff.1 hlabel.symm
    rcases (h'.isDerivation t' List.mem_cons_self).eq_ofProduction with
      ⟨b, hb, -, rfl⟩ | ⟨B, cs', hB, below', -, rfl⟩
    · obtain rfl : b = A := ht'
      exact absurd (Grammar.mem_nonterminals_of_mem_productions hA) hb
    · obtain rfl : B = A := ht'
      rw [List.flatMap_cons, frontier_ofProduction, ← List.flatMap_append, List.flatMap_cons,
        frontier_ofProduction, ← List.flatMap_append] at hfrontier
      have hright := h.right_eq hp hg hs h' below below' hA hB hfrontier
      have hlabels : (cs ++ ts).map label = (cs' ++ ts').map label := by
        rw [List.map_append, List.map_append, hright, hrest]
      have heq := ih (h.expand hp hg hs below hA).1 (h'.expand hp hg hs below' hB).1 hlabels
        hfrontier
      have hlength := congrArg List.length hright
      rw [List.length_map, List.length_map] at hlength
      obtain ⟨rfl, rfl⟩ := List.append_inj heq hlength
      rfl

end

/-! ## Completeness -/

theorem ready_start (hp : p.Compiled) (hg : p.grammar = g.number s) (hs : g.start? = some s)
    (ht : t.IsDerivation g) (hlabel : t.label = s) : p.Ready g s [t] where
  isDerivation u hu := List.mem_singleton.1 hu ▸ ht
  occurs u hu := by
    rw [List.mem_singleton.1 hu, hlabel]
    exact Or.inl (Grammar.start_mem_nonterminals hs)
  follow := follow_start hp hg hs hlabel

theorem awaits_initial (hs : g.start? = some s) (hlabel : t.label = s) :
    p.Awaits g s [t] (.initial p.grammar t.frontier) := by
  refine ⟨?_, (List.flatMap_singleton _ _).symm⟩
  change [p.grammar.start, p.grammar.endMark] = [(g.number s).code t.label] ++ [p.grammar.endMark]
  rw [hlabel, Grammar.code_start hs]
  rfl

/-- **What a derivation tree derives is accepted**, and the forest is a derivation tree of it. -/
theorem exists_parse_of_isDerivation (hp : p.Compiled) (hg : p.grammar = g.number s)
    (hs : g.start? = some s) (ht : t.IsDerivation g) (hlabel : t.label = s)
    (hend : endMark ∉ t.frontier) :
    ∃ f, p.parse t.frontier = .ok f ∧ f.IsTree ∧ f.IsParse g t.frontier := by
  have hmem := Grammar.start_mem_nonterminals hs
  have hready := ready_start hp hg hs ht hlabel
  have hfrontier : [t].flatMap frontier = t.frontier := List.flatMap_singleton _ _
  obtain ⟨n, c, hmoves, hstack, hrest⟩ :=
    exists_moves_of_trees hp hg hmem hready (hfrontier.symm ▸ hend) (awaits_initial hs hlabel)
  obtain ⟨top, stack, hstack, htop, hnil⟩ := List.map_eq_cons_iff.1 hstack
  have hstop := move?_endMark hstack htop
  have hvalid := valid_moves hp hg hs hmoves
  obtain ⟨done, ps, hsplit⟩ := hvalid.split
  obtain rfl : ps = [] := by
    have hlength := congrArg List.length (hsplit.stack_eq.symm.trans hstack)
    rw [List.map_eq_nil_iff.1 hnil, List.length_append, List.length_singleton,
      List.length_singleton] at hlength
    exact List.length_eq_zero_iff.1 (by omega)
  have hinput := hsplit.input_eq
  rw [hrest, List.flatMap_nil, List.append_nil] at hinput
  refine ⟨c.forest, hp.parse_eq_of_moves hmoves hstop ?_, hvalid.isTree,
    hvalid.isParse hs hsplit hinput.symm⟩
  rw [hsplit.cursor_eq, hinput, List.length_map]

/-- **Completeness and unambiguity** of a grammar that compiles. Every derivation tree of the start
symbol whose frontier is without `$` is the tree of its frontier, node for node; every string
without `$` that the start symbol derives is accepted; and no string has two derivation trees. -/
theorem parse_complete (h : g.compile = .ok p) :
    (∀ t : Tree Char, t.IsDerivation g → g.start? = some t.label → endMark ∉ t.frontier →
      ∃ f, p.parse t.frontier = .ok f ∧ f.tree = t ∧ f.size = t.size) ∧
    (∀ s w, g.start? = some s → g.Derives [s] w → (∀ a ∈ w, a ∉ g.nonterminals) → endMark ∉ w →
      ∃ f, p.parse w = .ok f) ∧
    ∀ t u : Tree Char, t.IsDerivation g → u.IsDerivation g → g.start? = some t.label →
      u.label = t.label → u.frontier = t.frontier → u = t := by
  obtain ⟨s, hs, hg, hp⟩ := Grammar.compile_eq_ok h
  have hmem := Grammar.start_mem_nonterminals hs
  have hunique : ∀ t u : Tree Char, t.IsDerivation g → u.IsDerivation g → g.start? = some t.label →
      u.label = t.label → u.frontier = t.frontier → u = t := by
    intro t u ht hu hlabel hlabels hfrontier
    obtain rfl : s = t.label := Option.some.inj (hs.symm.trans hlabel)
    have heq := eq_of_frontier_eq hp hg hmem (ready_start hp hg hs hu hlabels)
      (ready_start hp hg hs ht rfl) (by simp [hlabels]) (by simp [hfrontier])
    exact (List.cons.inj heq).1
  refine ⟨fun t ht hlabel hend => ?_, fun s' w hs' hw hterm hend => ?_, hunique⟩
  · have hstart : t.label = s := Option.some.inj (hlabel.symm.trans hs)
    obtain ⟨f, hf, htree, hparse⟩ := exists_parse_of_isDerivation hp hg hs ht hstart hend
    obtain ⟨hder, hroot, hfrontier⟩ := hparse.isDerivation_tree htree
    have heq : f.tree = t :=
      hunique t f.tree ht hder hlabel (Option.some.inj (hroot.symm.trans hlabel)) hfrontier
    refine ⟨f, hf, heq, ?_⟩
    rw [← htree.size_tree, heq]
  · obtain rfl : s' = s := Option.some.inj (hs'.symm.trans hs)
    obtain ⟨t, hlabel, rfl, ht⟩ :=
      Grammar.exists_tree hw (Grammar.ne_epsilon_of_mem_nonterminals hmem) hterm
    obtain ⟨f, hf, -⟩ := exists_parse_of_isDerivation hp hg hs ht hlabel hend
    exact ⟨f, hf⟩

/-- The derivation tree of `ab` for `S → a S b | ε`. -/
def nestedTree : Tree Char :=
  .node 'S' [.node 'a' [], .node 'S' [.node epsilon []], .node 'b' []]

theorem isDerivation_nestedTree : nestedTree.IsDerivation Grammar.nested := by
  refine .expand 'S' _ _ (by decide) fun t ht => ?_
  simp only [List.mem_cons, List.not_mem_nil, or_false] at ht
  rcases ht with rfl | rfl | rfl
  · exact .terminal 'a' (by decide) (by decide)
  · exact .vanish 'S' (by decide)
  · exact .terminal 'b' (by decide) (by decide)

theorem frontier_nestedTree : nestedTree.frontier = ['a', 'b'] := by
  decide

/-- The parser finds this tree, accepts `ab`, and there is no other tree of it. -/
theorem parse_complete_nested : ∃ p f f', Grammar.nested.compile = .ok p ∧
    p.parse nestedTree.frontier = .ok f ∧ f.tree = nestedTree ∧ f.size = nestedTree.size ∧
    p.parse ['a', 'b'] = .ok f' ∧
    ∀ u : Tree Char, u.IsDerivation Grammar.nested → u.label = 'S' → u.frontier = ['a', 'b'] →
      u = nestedTree := by
  obtain ⟨p, hp⟩ := Grammar.exists_compile (g := Grammar.nested) (by decide +kernel)
  obtain ⟨htree, hstring, hunique⟩ := parse_complete hp
  have hder := isDerivation_nestedTree
  have hderives := hder.derives
  have hend : endMark ∉ nestedTree.frontier := by rw [frontier_nestedTree]; decide
  rw [frontier_nestedTree] at hderives
  obtain ⟨f, hf, hshape, hsize⟩ := htree nestedTree hder (by decide) hend
  have hterm : ∀ a ∈ ['a', 'b'], a ∉ Grammar.nested.nonterminals := by
    rintro a (_ | ⟨_, _ | ⟨_, ⟨⟩⟩⟩)
    · decide
    · decide
  obtain ⟨f', hf'⟩ := hstring 'S' ['a', 'b'] (by decide) hderives hterm (by decide)
  refine ⟨p, f, f', hp, hf, hshape, hsize, hf', fun u hu hlabel hfrontier => ?_⟩
  exact hunique nestedTree u hder hu (by decide) hlabel (hfrontier.trans frontier_nestedTree.symm)

end PredictiveParsing.Parser
