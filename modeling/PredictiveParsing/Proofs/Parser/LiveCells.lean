import Mathlib
import PredictiveParsing.Proofs.Derivations
import PredictiveParsing.Proofs.Parser.Completeness
import PredictiveParsing.Proofs.Table.Prediction
import PredictiveParsing.Proofs.Upcoming

/-!
# Every cell of the table is used

In a reduced grammar whose productions are without `$`, no choice of the table is idle. A terminal
calls for a production because it comes first in what the production derives, or because it follows
the nonterminal while the production vanishes. Either way it does so in something that the start
symbol derives, and from that an input can be made up: the parser accepts it, and on its way it has
to expand the nonterminal on that terminal.

* **`exists_derives_of_follows`**: where a terminal follows a nonterminal;
* `exists_trees_of_predicts`: trees for what calls for a production;
* **`exists_accepted`**: an input whose tree is read up to a given expansion;
* **`exists_expand_of_get?`**: an input for every cell.
-/

namespace PredictiveParsing

open PredictiveParsing.Tree

/-! ## What follows a nonterminal -/

namespace Grammar

variable {g : Grammar} {s X : Char} {t N : ℕ} {as behind : Text} {before after : List ℕ}

theorem exists_behind_of_derives (hs : s ∈ g.nonterminals)
    (has : ∀ a ∈ as, [a] ∈ (g.number s).names) (hX : [X] ∈ (g.number s).names)
    (hterm : (g.number s).isTerminal t = true)
    (h : (g.number s).Derives (as.map (g.number s).code)
      (before ++ (g.number s).code X :: t :: after)) :
    ∃ c ∉ g.nonterminals, t = (g.number s).code c ∧ ∃ u v, g.Derives as (u ++ X :: c :: v) := by
  obtain ⟨bs, hbs, hder⟩ := (derives_code_iff hs has).1 h
  obtain ⟨u, tail, rfl, -, htail⟩ := List.map_eq_append_iff.1 hbs.symm
  obtain ⟨Y, tail, rfl, hY, htail⟩ := List.map_eq_cons_iff.1 htail
  obtain ⟨c, v, rfl, rfl, -⟩ := List.map_eq_cons_iff.1 htail
  have hnames := hder.mem_names hs has
  simp only [List.forall_mem_append, List.forall_mem_cons] at hnames
  obtain rfl := (NumberedGrammar.code_inj hnames.2.1 hX).1 hY
  exact ⟨c, (isTerminal_code hs hnames.2.2.1).1 hterm, rfl, u, v, hder⟩

theorem derives_of_augmentedStart (hs : g.start? = some s) {symbols : List ℕ}
    (hne : symbols ≠ [(g.number s).augmentedStart])
    (h : (g.number s).Derives [(g.number s).augmentedStart] symbols) :
    (g.number s).Derives ([s, endMark].map (g.number s).code) symbols := by
  rcases Relation.ReflTransGen.cases_head h with heq | ⟨_, hstep, hrest⟩
  · exact absurd heq.symm hne
  rcases hstep.of_cons with ⟨body, hr, rfl⟩ | ⟨_, hcs, -⟩
  · rw [NumberedGrammar.mem_rules, bodies_augmentedStart, List.mem_singleton] at hr
    rw [List.map_cons, List.map_singleton, code_start hs, code_endMark (start_mem_nonterminals hs)]
    rw [List.append_nil, hr] at hrest
    exact hrest
  · exact absurd hcs not_produces_nil

/-- **What follows a nonterminal does so in what the start symbol and the end mark derive**, if the
start symbol leads to all nonterminals. -/
theorem exists_derives_of_follows (hred : g.Reduced) (hs : g.start? = some s)
    (hX : X ∈ g.nonterminals) (h : (g.number s).Follows ((g.number s).code X) t) :
    ∃ c ∉ g.nonterminals, t = (g.number s).code c ∧
      ∃ u v, g.Derives [s, endMark] (u ++ X :: c :: v) := by
  have hmem := start_mem_nonterminals hs
  have hname := Occurs.mem_names hmem (Or.inl hX)
  obtain ⟨hterm, N, hN, before, after, hder⟩ := h
  by_cases haugmented : N = (g.number s).augmentedStart
  · have hne : before ++ (g.number s).code X :: t :: after ≠ [(g.number s).augmentedStart] :=
      fun heq => by
        have hlength := congrArg List.length heq
        simp at hlength
        omega
    rw [haugmented] at hder
    exact exists_behind_of_derives hmem (mem_names_start hmem) hname hterm
      (derives_of_augmentedStart hs hne hder)
  · obtain ⟨M, hM, rfl⟩ := exists_code_eq hmem hN haugmented
    have hnames : ∀ a ∈ [M], [a] ∈ (g.number s).names := fun a ha =>
      List.mem_singleton.1 ha ▸ Occurs.mem_names hmem (Or.inl hM)
    obtain ⟨c, hc, rfl, u, v, hder⟩ := exists_behind_of_derives hmem hnames hname hterm hder
    -- What the nonterminal derives, where it stands in what the start symbol derives.
    obtain ⟨s', hs', u', v', hreach⟩ := hred.reachable M hM
    obtain rfl : s = s' := Option.some.inj (hs.symm.trans hs')
    refine ⟨c, hc, rfl, u' ++ u, v ++ v' ++ [endMark], ?_⟩
    have hinner := hder.context u' v'
    rw [List.append_assoc, List.singleton_append] at hinner
    have houter := (hreach.trans hinner).append (.refl [endMark])
    simp only [List.append_assoc, List.cons_append] at houter ⊢
    exact houter

theorem exists_upcoming_of_endMark (hs : g.start? = some s) {c : Char} {u v : Text}
    (h : g.Derives [s, endMark] (u ++ X :: c :: v)) :
    ∃ behind rest, g.Upcoming X behind ∧ g.Derives behind rest ∧ rest ++ [endMark] = c :: v := by
  have hend : ∀ right, right ∉ g.productions endMark := fun right hright =>
    ne_endMark_of_mem_nonterminals (mem_nonterminals_of_mem_productions hright) rfl
  change g.Derives ([s] ++ [endMark]) _ at h
  -- The end mark has no productions and stays the last symbol.
  obtain ⟨w, hw, hder⟩ := Derives.exists_of_concat hend h
  rcases append_eq_append_cons hw.symm with ⟨rest, rfl, hrest⟩ | ⟨w', -, hlast⟩
  · obtain ⟨behind, hX, hbehind⟩ := exists_upcoming_of_derives hs hder rfl
    exact ⟨behind, rest, hX, hbehind, hrest.symm⟩
  · have hlength := congrArg List.length hlast
    simp at hlength
    omega

theorem exists_trees_nextSymbol (hred : g.Reduced) (hε : epsilon ∉ behind) {c : Char}
    (hc : c ∉ g.nonterminals) {rest v : Text} (h : g.Derives behind rest)
    (hrest : rest ++ [endMark] = c :: v) : ∃ ts : List (Tree Char), ts.map label = behind ∧
      (∀ t ∈ ts, t.IsDerivation g) ∧ nextSymbol ts = c := by
  cases rest with
  | nil =>
    obtain ⟨ts, hlabels, hfrontier, hts⟩ := exists_trees h hε (by simp)
    refine ⟨ts, hlabels, hts, ?_⟩
    rw [nextSymbol, hfrontier]
    exact (List.cons.inj hrest).1
  | cons x rest =>
    obtain ⟨rfl, -⟩ := List.cons.inj hrest
    obtain ⟨ts, hlabels, hts, w, hfrontier⟩ := hred.exists_trees_cons hε hc h
    refine ⟨ts, hlabels, hts, ?_⟩
    rw [nextSymbol, hfrontier]
    rfl

/-- **Trees for what calls for a production**: those of the production, and behind them others that
come up together with them, so that the terminal comes next. -/
theorem exists_trees_of_predicts (hred : g.Reduced) (hs : g.start? = some s) {right : Text}
    (hright : right ∈ g.productions X)
    (h : (g.number s).Predicts ((g.number s).code X) (right.map (g.number s).code) t) :
    ∃ (behind : Text) (cs ts : List (Tree Char)), g.Upcoming X behind ∧
      cs.map label = right ∧ (∀ c ∈ cs, c.IsDerivation g) ∧
      ts.map label = behind ∧ (∀ t ∈ ts, t.IsDerivation g) ∧
      t = (g.number s).code (nextSymbol (cs ++ ts)) := by
  have hmem := start_mem_nonterminals hs
  have hX := mem_nonterminals_of_mem_productions hright
  have hnames : ∀ a ∈ right, [a] ∈ (g.number s).names := fun a ha =>
    Occurs.mem_names hmem (Or.inr ⟨X, right, hright, ha⟩)
  have hε := epsilon_notMem_of_mem_productions hright
  rcases h with hbegins | ⟨hnil, hfollows⟩
  · obtain ⟨c, hc, rfl, rest, hder⟩ := (begins_code_iff hmem hnames).1 hbegins
    obtain ⟨cs, hlabels, hcs, w, hfrontier⟩ := hred.exists_trees_cons hε hc hder
    obtain ⟨s', hs', u, v, hreach⟩ := hred.reachable X hX
    obtain ⟨behind, hupcoming, -⟩ := exists_upcoming_of_derives hs' hreach rfl
    obtain ⟨ts, hlabels', hts⟩ := hred.exists_trees hupcoming.epsilon_notMem
    refine ⟨behind, cs, ts, hupcoming, hlabels, hcs, hlabels', hts, ?_⟩
    rw [nextSymbol, List.flatMap_append, hfrontier]
    rfl
  · obtain ⟨bs, hbs, hder⟩ := (derives_code_iff hmem hnames).1 hnil
    obtain rfl := List.map_eq_nil_iff.1 hbs.symm
    obtain ⟨cs, hlabels, hfrontier, hcs⟩ := exists_trees hder hε (by simp)
    obtain ⟨c, hc, rfl, u, v, hplace⟩ := exists_derives_of_follows hred hs hX hfollows
    obtain ⟨behind, rest, hupcoming, hbehind, hrest⟩ := exists_upcoming_of_endMark hs hplace
    obtain ⟨ts, hlabels', hts, hnext⟩ :=
      exists_trees_nextSymbol hred hupcoming.epsilon_notMem hc hbehind hrest
    refine ⟨behind, cs, ts, hupcoming, hlabels, hcs, hlabels', hts, ?_⟩
    rw [nextSymbol, List.flatMap_append, hfrontier, List.nil_append, ← nextSymbol, hnext]

end Grammar

/-! ## Accepted inputs -/

namespace Parser

variable {p : Parser} {g : Grammar} {s X : Char} {behind : Text} {cs ts : List (Tree Char)} {i : ℕ}

/-- **An input whose tree is read up to a given expansion.** If the trees for a production and for
what stands behind its nonterminal come up, then the parser accepts the tree in which they do, and
expands the nonterminal on the symbol that is next in them. -/
theorem exists_accepted (hp : p.Compiled) (hg : p.grammar = g.number s) (hs : g.start? = some s)
    (hred : g.Reduced) (hend : ∀ r ∈ g.rules, endMark ∉ r.right)
    (hX : g.Upcoming X behind) (hcs : ∀ c ∈ cs, c.IsDerivation g)
    (hright : cs.map label ∈ g.productions X) (hts : ∀ t ∈ ts, t.IsDerivation g)
    (hlabels : ts.map label = behind)
    (hcell : p.table.get? (p.grammar.code X) (p.grammar.code (nextSymbol (cs ++ ts))) = some i) :
    ∃ input f, p.parse input = .ok f ∧
      .expand (p.grammar.code X) i (nextSymbol (cs ++ ts)) ∈ (p.run input).moves ∧
      p.grammar.indexOf? [nextSymbol (cs ++ ts)] =
        some (p.grammar.code (nextSymbol (cs ++ ts))) := by
  have hmem := Grammar.start_mem_nonterminals hs
  obtain ⟨root, hroot, hlabel, hreading⟩ :=
    hX.exists_reading hred (.ofProduction hright hcs) rfl hts hlabels
  replace hlabel : root.label = s := Option.some.inj (hlabel.symm.trans hs)
  have hroot' : endMark ∉ [root.label] := by
    rw [hlabel, List.mem_singleton]
    exact (Grammar.ne_endMark_of_mem_nonterminals hmem).symm
  have hfrontier : endMark ∉ root.frontier := hroot.derives.notMem (fun A right hright => by
    obtain ⟨r, hr, -, rfl⟩ := Grammar.mem_productions.1 hright
    exact hend r hr) hroot'
  obtain ⟨f, hf, -⟩ := exists_parse_of_isDerivation hp hg hs hroot hlabel hfrontier
  obtain ⟨hready, n, d, hmoves, hd⟩ := exists_moves_of_reading hp hg hmem hreading
    (ready_start hp hg hs hroot hlabel) (by simpa using hfrontier) (awaits_initial hs hlabel)
  have hl := (hready.expand hp hg hmem hcs hright).1.indexOf?_nextSymbol hp hg hmem
  rw [← hg] at hl
  refine ⟨root.frontier, f, hf, hp.mem_moves_run hmoves ?_, hl⟩
  obtain ⟨top, stack, hstack, htop, -⟩ := List.map_eq_cons_iff.1 hd.stack
  replace htop : top.symbol = p.grammar.code X := by rw [hg]; exact htop
  have hlt := hp.lt_of_mem_rules (hp.mem_rules_of_get? hcell).1
  rw [← htop] at hcell hlt ⊢
  rw [← hd.lookahead_eq] at hcell hl ⊢
  exact move?_expand hstack (hlt.trans_le hp.wellFormed.le_endMark).ne
    (NumberedGrammar.not_isTerminal_iff.2 hlt) ((choice?_eq hl _).trans hcell)

/-- **No cell of the table is dead.** For every production that the table of a reduced grammar
without `$` in its productions chooses on a terminal, there is an input that is accepted, and on the
way the nonterminal is expanded by that production while the terminal comes next. -/
theorem exists_expand_of_get? (h : g.compile = .ok p) (hred : g.Reduced)
    (hend : ∀ r ∈ g.rules, endMark ∉ r.right) {A t : ℕ} (hA : A ≠ p.grammar.augmentedStart)
    (hcell : p.table.get? A t = some i) :
    ∃ input f c, p.parse input = .ok f ∧ .expand A i c ∈ (p.run input).moves ∧
      p.grammar.indexOf? [c] = some t := by
  obtain ⟨s, hs, hg, hp⟩ := Grammar.compile_eq_ok h
  have hmem := Grammar.start_mem_nonterminals hs
  obtain ⟨hr, ht⟩ := hp.mem_rules_of_get? hcell
  have hlt := hp.lt_of_mem_rules hr
  rw [hp.facts_eq, NumberedGrammar.mem_claimed_iff_predicts hp.wellFormed hlt] at ht
  rw [hg] at hr ht hA hlt
  obtain ⟨X, hX, rfl⟩ := Grammar.exists_code_eq hmem hlt hA
  obtain ⟨right, hright, hbody⟩ :=
    (Grammar.mem_rules_code hmem (Grammar.Occurs.mem_names hmem (Or.inl hX))).1 hr
  rw [hbody] at ht
  obtain ⟨behind, cs, ts, hupcoming, rfl, hcs, hlabels, hts, rfl⟩ :=
    Grammar.exists_trees_of_predicts hred hs hright ht
  rw [← hg] at hcell ⊢
  obtain ⟨input, f, hf, hmove, hl⟩ :=
    exists_accepted hp hg hs hred hend hupcoming hcs hright hts hlabels hcell
  exact ⟨input, f, _, hf, hmove, hl⟩

theorem reduced_nested : Grammar.nested.Reduced := by
  have hnonterminals : Grammar.nested.nonterminals = ['S'] := by decide
  have hS : Grammar.nested.Derives ['S'] [] := .of_rule (by decide)
  refine ⟨fun A hA => ?_, fun A hA => ?_⟩
  · rw [hnonterminals, List.mem_singleton] at hA
    exact hA ▸ ⟨'S', rfl, [], [], .refl ['S']⟩
  · rw [hnonterminals, List.mem_singleton] at hA
    exact hA ▸ ⟨[], hS, by simp⟩

/-- On `b` the empty production of `S → a S b | ε` is chosen, so some accepted input needs it there:
`b` comes next only behind an inner `S`. -/
theorem exists_expand_of_get?_nested : ∃ p, Grammar.nested.compile = .ok p ∧
    Grammar.nested.Reduced ∧ (∀ r ∈ Grammar.nested.rules, endMark ∉ r.right) ∧
    0 ≠ p.grammar.augmentedStart ∧ p.table.get? 0 3 = some 1 ∧
    ∃ input f c, p.parse input = .ok f ∧ .expand 0 1 c ∈ (p.run input).moves ∧
      p.grammar.indexOf? [c] = some 3 := by
  obtain ⟨p, hp⟩ := Grammar.exists_compile (g := Grammar.nested) (by decide +kernel)
  have hcell : (Grammar.nested.compile.map fun p =>
      (p.grammar.augmentedStart, p.table.get? 0 3)) = .ok (1, some 1) := by decide +kernel
  rw [hp] at hcell
  obtain ⟨haugmented, hcell⟩ := Prod.mk.inj (Except.ok.inj hcell)
  have hA : 0 ≠ p.grammar.augmentedStart := by rw [haugmented]; exact Nat.zero_ne_one
  have hend : ∀ r ∈ Grammar.nested.rules, endMark ∉ r.right := by decide
  exact ⟨p, hp, reduced_nested, hend, hA, hcell,
    exists_expand_of_get? hp reduced_nested hend hA hcell⟩

end Parser

end PredictiveParsing
