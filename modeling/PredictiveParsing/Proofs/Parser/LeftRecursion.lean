import Mathlib
import PredictiveParsing.Proofs.Parser.Prefixes
import PredictiveParsing.Proofs.Reduced
import PredictiveParsing.Proofs.Table.Prediction

/-!
# Left recursion

No parser can be made for a reduced grammar in which some nonterminal derives something that begins
with the nonterminal itself. Nothing looks for left recursion: it is the parser that could not come
to an end. With the nonterminal on top of its stack, and a lookahead that can come next through its
recursion, it would go round and round without consuming anything. The lookahead is the first symbol
of what the nonterminal derives; or, if it derives nothing else than the empty string, of what
stands behind it.

* `Grammar.LeftRecursive`, `LeftRecursive.exists_rule`: left recursion of any length, hidden or not;
* `Reduced.exists_lookahead`: a lookahead for the recursion;
* `Parser.Circles`, **`Circles.exists_move`**: there is always one more move;
* **`leftRecursive_ambiguous`**: left recursion is rejected.
-/

namespace PredictiveParsing

namespace Grammar

variable {g : Grammar} {A : Char} {right after behind : Text}

/-- The nonterminal derives, in one or more steps, something that begins with itself. -/
def LeftRecursive (g : Grammar) (A : Char) : Prop :=
  ∃ after, Relation.TransGen (Produces fun B right => right ∈ g.productions B) [A] (A :: after)

theorem LeftRecursive.exists_rule (h : g.LeftRecursive A) :
    ∃ right ∈ g.productions A, ∃ after, g.Derives right (A :: after) := by
  obtain ⟨after, h⟩ := h
  obtain ⟨symbols, hstep, hder⟩ := Relation.TransGen.head'_iff.1 h
  rcases hstep.of_cons with ⟨right, hright, rfl⟩ | ⟨cs, hcs, -⟩
  · rw [List.append_nil] at hder
    exact ⟨right, hright, after, hder⟩
  · exact absurd hcs not_produces_nil

/-- **A lookahead for the recursion.** It comes first in what the nonterminal derives; or what
stands behind the recursion vanishes, and so does the nonterminal, and the lookahead comes after
it. -/
theorem Reduced.exists_lookahead (h : g.Reduced) (hright : right ∈ g.productions A)
    (hafter : g.Derives right (A :: after)) (behind : Text) :
    ∃ x ∉ g.nonterminals, ∃ rest, g.Derives [A] (x :: rest) ∨
      (g.Derives after [] ∧ g.Derives (A :: (behind ++ [endMark])) (x :: rest)) := by
  have hend : endMark ∉ g.nonterminals := fun h => ne_endMark_of_mem_nonterminals h rfl
  obtain ⟨w, hw, hterm⟩ := h.exists_derives_terminals [A]
  obtain ⟨w', hw', hterm'⟩ := h.exists_derives_terminals after
  have hA : g.Derives [A] (w ++ w') :=
    Derives.trans (.of_rule hright) (hafter.trans (hw.append hw'))
  cases hwords : w ++ w' with
  | cons x rest =>
    rw [hwords] at hA
    have hx : x ∈ w ++ w' := hwords ▸ List.mem_cons_self
    exact ⟨x, (List.mem_append.1 hx).elim (hterm x) (hterm' x), rest, Or.inl hA⟩
  | nil =>
    obtain ⟨rfl, rfl⟩ := List.append_eq_nil_iff.1 hwords
    obtain ⟨v, hv, hterm⟩ := h.exists_derives_terminals behind
    have hlast : ∀ a ∈ v ++ [endMark], a ∉ g.nonterminals :=
      List.forall_mem_append.2 ⟨hterm, fun a ha => List.mem_singleton.1 ha ▸ hend⟩
    have hne : v ++ [endMark] ≠ [] := List.append_ne_nil_of_right_ne_nil v (List.cons_ne_nil _ [])
    obtain ⟨x, rest, hx⟩ := List.exists_cons_of_ne_nil hne
    have hbehind : g.Derives (A :: (behind ++ [endMark])) (v ++ [endMark]) :=
      hA.append (hv.append (.refl [endMark]))
    rw [hx] at hbehind hlast
    exact ⟨x, hlast x List.mem_cons_self, rest, Or.inr ⟨hw', hbehind⟩⟩

end Grammar

namespace Parser

open NumberedGrammar

variable {p : Parser} {c d : Config} {A t : ℕ} {body after : List ℕ}

/-- The lookahead is the terminal `t`, the pending symbols lead to `A`, and `t` can come first once
`A` is reached. -/
structure Circles (p : Parser) (A t : ℕ) (c : Config) : Prop where
  followed : p.grammar.Followed c.symbols
  lookahead : p.grammar.indexOf? [c.lookahead] = some t
  leads : ∃ behind, p.grammar.Derives c.symbols (A :: behind) ∧
    t ∈ p.grammar.facts.firstSeq (A :: behind)

/-- A configuration with the given lookahead and the given pending symbols. -/
def awaiting (lookahead : Char) (symbols : List ℕ) : Config :=
  ⟨0, [lookahead], symbols.map fun X => ⟨X, Forest.root⟩, .singleton lookahead⟩

theorem symbols_awaiting (lookahead : Char) (symbols : List ℕ) :
    (awaiting lookahead symbols).symbols = symbols := by
  rw [awaiting, Config.symbols, List.map_map]
  exact List.map_id symbols

theorem circles_awaiting {x : Char} {behind : List ℕ} (hname : [x] ∈ p.grammar.names)
    (hfollowed : p.grammar.Followed (A :: behind))
    (hfirst : p.grammar.code x ∈ p.grammar.facts.firstSeq (A :: behind)) :
    p.Circles A (p.grammar.code x) (awaiting x (A :: behind)) where
  followed := (symbols_awaiting x (A :: behind)).symm ▸ hfollowed
  lookahead := indexOf?_code hname
  leads := ⟨behind, (symbols_awaiting x (A :: behind)).symm ▸ derives_refl _, hfirst⟩

section

variable (hp : p.Compiled) (hr : (A, body) ∈ p.grammar.rules)
  (hbody : p.grammar.Derives body (A :: after))
  (ht : t ∈ p.grammar.facts.firstOf A ∨ p.grammar.facts.isNullableSeq after = true)
include hp hr hbody ht

theorem exists_rule_of_derives {X : ℕ} {symbols behind : List ℕ}
    (hder : p.grammar.Derives (X :: symbols) (A :: behind))
    (hfirst : t ∈ p.grammar.facts.firstSeq (A :: behind)) :
    ∃ body', (X, body') ∈ p.grammar.rules ∧ ∃ behind',
      p.grammar.Derives (body' ++ symbols) (A :: behind') ∧
      t ∈ p.grammar.facts.firstSeq (A :: behind') := by
  by_cases hX : X = A
  · -- With `A` on top, its recursion begins once more.
    subst hX
    refine ⟨body, hr, after ++ symbols, hbody.append (derives_refl symbols), ?_⟩
    have htop := mem_firstSeq_of_derives hp.wellFormed hder hfirst
    rw [Facts.mem_firstSeq_cons] at htop ⊢
    rcases htop with htop | ⟨hnull, hsymbols⟩
    · exact Or.inl htop
    · refine ht.imp_right fun hafter => ⟨hnull, ?_⟩
      exact Facts.mem_firstSeq_append.2 (Or.inr ⟨hafter, hsymbols⟩)
  · obtain ⟨body', hr', hder'⟩ := hder.exists_rule hX
    exact ⟨body', hr', behind, hder', hfirst⟩

/-- **There is one more move**, by the production that leads on to `A`, and nothing is consumed. -/
theorem Circles.exists_move (h : p.Circles A t c) : ∃ d, p.Moves 1 c d ∧ p.Circles A t d := by
  obtain ⟨behind, hder, hfirst⟩ := h.leads
  have hfollowed := h.followed
  cases hs : c.stack with
  | nil =>
    rw [Config.symbols, hs] at hder
    exact absurd hder.eq_nil (List.cons_ne_nil _ _)
  | cons top stack =>
    rw [Config.symbols_of_cons hs] at hder hfollowed
    obtain ⟨body', hr', behind', hder', hfirst'⟩ :=
      exists_rule_of_derives hp hr hbody ht hder hfirst
    have hX := not_isTerminal_iff.2 (hp.lt_of_mem_rules hr')
    have hclaimed : t ∈ p.facts.claimed top.symbol body' := by
      have hbody' := mem_firstSeq_of_derives hp.wellFormed hder' hfirst'
      rw [hp.facts_eq, Facts.mem_claimed]
      exact (Facts.mem_firstSeq_append.1 hbody').imp_right (And.imp_right (hfollowed.1 hX t))
    obtain ⟨d, hd, hstack, hrest⟩ := exists_expand hp hs h.lookahead hr' hclaimed
    have hsymbols : d.symbols = body' ++ stack.map (·.symbol) := by
      rw [Config.symbols, hstack, List.map_append, map_symbol_entries]
    refine ⟨d, hd, ?_, Config.lookahead_congr hrest ▸ h.lookahead, behind', ?_, hfirst'⟩
    · rw [hsymbols]
      exact hfollowed.expand hp.wellFormed (u := []) hr'
    · rwa [hsymbols]

end

section

variable {g : Grammar} {s A : Char}

theorem followed_of_derives_start (hp : p.Compiled) (hg : p.grammar = g.number s)
    (hs : g.start? = some s) {as : Text} (h : g.Derives [s, endMark] as) :
    p.grammar.Followed (as.map p.grammar.code) := by
  have hmem := Grammar.start_mem_nonterminals hs
  have hder := h.code hmem
  have hrule := Grammar.augmented_mem_rules (g := g) (s := s)
  rw [List.map_cons, List.map_singleton, Grammar.code_start hs, Grammar.code_endMark hmem] at hder
  rw [← hg] at hder hrule
  exact followed_of_derives hp.wellFormed ((derives_of_mem_rules hrule).trans hder)

/-- **A configuration from which the parser goes round and round**: the nonterminal is pending, and
behind it what stands behind it in something that the start symbol derives. -/
theorem exists_circles (hp : p.Compiled) (hg : p.grammar = g.number s) (hs : g.start? = some s)
    (h : g.Reduced) {right after : Text} (hright : right ∈ g.productions A)
    (hafter : g.Derives right (A :: after)) :
    ∃ c t, p.Circles (p.grammar.code A) t c ∧ (t ∈ p.grammar.facts.firstOf (p.grammar.code A) ∨
      p.grammar.facts.isNullableSeq (after.map p.grammar.code) = true) := by
  have hmem := Grammar.start_mem_nonterminals hs
  obtain ⟨s', hs', before, behind, hder⟩ :=
    h.reachable A (Grammar.mem_nonterminals_of_mem_productions hright)
  obtain rfl : s = s' := Option.some.inj (hs.symm.trans hs')
  obtain ⟨x, hx, rest, hlook⟩ := h.exists_lookahead hright hafter behind
  have hcontext : g.Derives [s, endMark] (before ++ (A :: behind ++ [endMark])) := by
    rw [← List.append_assoc]
    exact hder.append (.refl [endMark])
  have hnames := List.forall_mem_append.1 (hcontext.mem_names hmem (Grammar.mem_names_start hmem))
  have hfollowed := followed_of_derives_start hp hg hs hcontext
  rw [List.map_append] at hfollowed
  have hA : ∀ a ∈ [A], [a] ∈ (g.number s).names := fun a ha =>
    hnames.2 a (List.mem_singleton.1 ha ▸ List.mem_cons_self)
  have hwf := Grammar.wellFormed_number (g := g) hmem
  rcases hlook with hfirst | ⟨hnil, hbehind⟩
  · have hname := hfirst.mem_names hmem hA x List.mem_cons_self
    have ht := (mem_firstOf_iff_begins hwf).2
      ((Grammar.begins_code_iff hmem hA).2 ⟨x, hx, rfl, rest, hfirst⟩)
    rw [← hg] at hname ht
    refine ⟨_, _, circles_awaiting hname hfollowed.of_append ?_, Or.inl ht⟩
    exact Facts.mem_firstSeq_cons.2 (Or.inl ht)
  · have hname := hbehind.mem_names hmem hnames.2 x List.mem_cons_self
    have ht := (mem_firstSeq_iff_begins hwf).2
      ((Grammar.begins_code_iff hmem hnames.2).2 ⟨x, hx, rfl, rest, hbehind⟩)
    have hnull := (isNullableSeq_iff_derives hwf).2 (hnil.code hmem)
    rw [← hg] at hname ht hnull
    exact ⟨_, _, circles_awaiting hname hfollowed.of_append ht, Or.inr hnull⟩

end

end Parser

namespace Grammar

/-- **Left recursion is rejected** in a reduced grammar, whether it is direct, takes several
productions, or is hidden behind what can vanish. -/
theorem leftRecursive_ambiguous {g : Grammar} {A : Char} (h : g.Reduced) (hA : g.LeftRecursive A) :
    ∃ B t body, g.compile = .error (.ambiguous B t body) := by
  obtain ⟨right, hright, after, hafter⟩ := hA.exists_rule
  obtain ⟨r, hr, -⟩ := mem_productions.1 hright
  obtain ⟨n, hn, -⟩ := exists_number? (List.ne_nil_of_mem hr)
  refine (exists_ambiguous_iff hn).2 ?_
  rintro ⟨p, hp⟩
  obtain ⟨s, hs, hg, hp⟩ := compile_eq_ok hp
  have hmem := start_mem_nonterminals hs
  obtain ⟨c, t, hc, ht⟩ := Parser.exists_circles hp hg hs h hright hafter
  have hrule := mem_rules_of_mem_productions hmem hright
  have hbody := hafter.code hmem
  rw [← hg] at hrule hbody
  exact hp.not_of_progress (fun _ => Parser.Circles.exists_move hp hrule hbody ht) c hc

/-- `U → V y`, `V → W V | ε`, `W → ε`: the recursion of `V` is hidden behind `W`, and `V` derives
nothing but the empty string. -/
def hiddenRecursion : Grammar where
  rules := [.ofText ⟨'U', by decide, by decide⟩ ['V', 'y'],
    .ofText ⟨'V', by decide, by decide⟩ ['W', 'V'], .ofText ⟨'V', by decide, by decide⟩ [],
    .ofText ⟨'W', by decide, by decide⟩ []]

theorem reduced_hiddenRecursion : hiddenRecursion.Reduced := by
  have hU : hiddenRecursion.Derives ['U'] ['V', 'y'] := .of_rule (by decide)
  have hV : hiddenRecursion.Derives ['V'] ['W', 'V'] := .of_rule (by decide)
  have hV' : hiddenRecursion.Derives ['V'] [] := .of_rule (by decide)
  have hW : hiddenRecursion.Derives ['W'] [] := .of_rule (by decide)
  have hy : hiddenRecursion.Derives ['y'] ['y'] := .refl ['y']
  have hnonterminals : hiddenRecursion.nonterminals = ['U', 'V', 'W'] := by decide
  have hmem : ∀ A, A ∈ hiddenRecursion.nonterminals ↔ A = 'U' ∨ A = 'V' ∨ A = 'W' := fun A => by
    simp only [hnonterminals, List.mem_cons, List.not_mem_nil, or_false]
  refine ⟨fun A hA => ?_, fun A hA => ?_⟩
  · rcases (hmem A).1 hA with rfl | rfl | rfl
    · exact ⟨'U', rfl, [], [], .refl ['U']⟩
    · exact ⟨'U', rfl, [], ['y'], hU⟩
    · exact ⟨'U', rfl, [], ['V', 'y'], hU.trans (hV.append hy)⟩
  · rcases (hmem A).1 hA with rfl | rfl | rfl
    · exact ⟨['y'], hU.trans (hV'.append hy), by simp [hmem]⟩
    · exact ⟨[], hV', by simp⟩
    · exact ⟨[], hW, by simp⟩

/-- Both productions of `V` are for `y`, which follows it. -/
theorem leftRecursive_ambiguous_hidden : hiddenRecursion.Reduced ∧
    hiddenRecursion.LeftRecursive 'V' ∧
    ∃ B t body, hiddenRecursion.compile = .error (.ambiguous B t body) := by
  have hfirst : Produces (fun B right => right ∈ hiddenRecursion.productions B)
      ([] ++ 'V' :: []) ([] ++ ['W', 'V'] ++ []) := .replace [] [] (by decide)
  have hnext : Produces (fun B right => right ∈ hiddenRecursion.productions B)
      ([] ++ 'W' :: ['V']) ([] ++ [] ++ ['V']) := .replace [] ['V'] (by decide)
  have hrecursive : hiddenRecursion.LeftRecursive 'V' := ⟨[], .tail (.single hfirst) hnext⟩
  exact ⟨reduced_hiddenRecursion, hrecursive,
    leftRecursive_ambiguous reduced_hiddenRecursion hrecursive⟩

end Grammar

end PredictiveParsing
