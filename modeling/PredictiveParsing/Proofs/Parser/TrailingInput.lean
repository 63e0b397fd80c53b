import Mathlib
import PredictiveParsing.Proofs.Parser.Unread

/-!
# Trailing input

When a run comes to the end mark before the end of its input, the consumed input would have been
accepted on its own.

Between the last symbol that is consumed and the end mark only nonterminals stand, and they all
vanish: none of them leads to the symbol that is left over, or that symbol would have been consumed.
At the end of the input they vanish as well: the end mark follows them, and there is only one
production by which a nonterminal vanishes.

* `Vanishes`: the symbols that stand before an end mark, if they can vanish;
* `exists_vanishes_of_expand`: before an expansion, if the lookahead is not consumed after it;
  `exists_vanishes_apply`: after a move at the end of the input;
* **`exists_moves_take`**: the moves on the consumed input alone;
* **`stop_of_vanishes`**: where only such symbols are left, the end mark is reached;
* **`parse_take`**: what is consumed before trailing input is accepted.
-/

namespace PredictiveParsing

namespace Parser

open Config NumberedGrammar

variable {p : Parser} {g : Grammar} {c d : Config} {m : Move} {top : Pending}
  {stack : List Pending} {A i k n t : ℕ}
  {body symbols u v : List ℕ} {s : Char} {input : Text} {stop : Stop}

/-! ## Symbols that vanish -/

/-- The symbols `u` stand before an end mark, and they can all vanish. -/
structure Vanishes (p : Parser) (u symbols : List ℕ) : Prop where
  nullable : p.facts.isNullableSeq u = true
  exists_eq : ∃ v, symbols = u ++ p.grammar.endMark :: v

theorem Vanishes.exists_cons (h : p.Vanishes u (A :: symbols)) (hA : A ≠ p.grammar.endMark) :
    ∃ u', p.facts.isNullable A = true ∧ p.Vanishes u' symbols := by
  obtain ⟨hnull, v, hv⟩ := h
  cases u with
  | nil => exact absurd (List.cons.inj hv).1 hA
  | cons B u =>
    obtain ⟨rfl, htail⟩ := List.cons.inj hv
    obtain ⟨hA, hnull⟩ := Facts.isNullableSeq_cons.1 hnull
    exact ⟨u, hA, hnull, v, htail⟩

theorem Compiled.isTerminal_endMark (hp : p.Compiled) :
    p.grammar.isTerminal p.grammar.endMark = true :=
  isTerminal_iff.2 hp.wellFormed.le_endMark

theorem Compiled.not_endMark_cons (hp : p.Compiled) (ht : t ≠ p.grammar.endMark) :
    p.facts.isNullableSeq (p.grammar.endMark :: v) ≠ true ∧
      t ∉ p.facts.firstSeq (p.grammar.endMark :: v) := by
  have hnull : p.facts.isNullable p.grammar.endMark ≠ true := fun h =>
    Bool.false_ne_true ((hp.isTerminal_eq_false_of_isNullable h).symm.trans hp.isTerminal_endMark)
  refine ⟨fun h => hnull (Facts.isNullableSeq_cons.1 h).1, fun h => ?_⟩
  rcases Facts.mem_firstSeq_cons.1 h with h | h
  · exact ht ((hp.mem_firstOf_terminal hp.isTerminal_endMark).1 h)
  · exact hnull h.1

/-- **Before an expansion.** If after it only symbols that vanish stand before an end mark, and none
of them leads to the lookahead, then so it was before: the production was chosen because it
vanishes, and no other production of the nonterminal leads to the lookahead. -/
theorem Compiled.exists_vanishes_of_expand (hp : p.Compiled) (hr : (A, body) ∈ p.grammar.rules)
    (ht : t ∈ p.facts.claimed A body) (hend : t ≠ p.grammar.endMark)
    (h : p.Vanishes u (body ++ symbols)) (hu : t ∉ p.facts.firstSeq u) :
    ∃ u', p.Vanishes u' (A :: symbols) ∧ t ∉ p.facts.firstSeq u' := by
  obtain ⟨hnull, v, hv⟩ := h
  -- Either the end mark stands behind the production, or it is part of it.
  obtain ⟨w, rfl, rfl⟩ | ⟨w, rfl, hw⟩ :
      (∃ w, u = body ++ w ∧ symbols = w ++ p.grammar.endMark :: v) ∨
        ∃ w, body = u ++ p.grammar.endMark :: w ∧ v = w ++ symbols := by
    rcases List.append_eq_append_iff.1 hv with ⟨w, hw, hsymbols⟩ | ⟨w, hbody, hw⟩
    · exact Or.inl ⟨w, hw, hsymbols⟩
    · cases w with
      | nil => exact Or.inl ⟨[], by simpa using hbody.symm, by simpa using hw.symm⟩
      | cons X w =>
        obtain ⟨rfl, htail⟩ := List.cons.inj hw
        exact Or.inr ⟨w, hbody, htail⟩
  · obtain ⟨hbody, hw⟩ := Facts.isNullableSeq_append.1 hnull
    have hA := hp.isNullable_of_mem_rules hr hbody
    refine ⟨A :: w, ⟨Facts.isNullableSeq_cons.2 ⟨hA, hw⟩, v, rfl⟩, fun hfirst => ?_⟩
    rcases Facts.mem_firstSeq_cons.1 hfirst with hfirst | ⟨-, hfirst⟩
    · rw [hp.facts_eq, mem_firstOf_iff hp.wellFormed (hp.lt_of_mem_rules hr),
        ← hp.facts_eq] at hfirst
      obtain ⟨body', hr', ht'⟩ := hfirst
      obtain rfl := hp.eq_of_mem_claimed hr' hr (Facts.mem_claimed.2 (Or.inl ht')) ht
      exact hu (Facts.mem_firstSeq_append.2 (Or.inl ht'))
    · exact hu (Facts.mem_firstSeq_append.2 (Or.inr ⟨hbody, hfirst⟩))
  · exfalso
    obtain ⟨hnull', hfirst'⟩ := hp.not_endMark_cons (v := w) hend
    rcases Facts.mem_claimed.1 ht with hfirst | ⟨hbody, -⟩
    · rcases Facts.mem_firstSeq_append.1 hfirst with hfirst | ⟨-, hfirst⟩
      · exact hu hfirst
      · exact hfirst' hfirst
    · exact hnull' (Facts.isNullableSeq_append.1 hbody).2

theorem Compiled.exists_vanishes_before (hp : p.Compiled) (hs : c.stack = top :: stack)
    (hi : p.choice? top.symbol c.lookahead = some i) (hc : c.lookahead = d.lookahead)
    (hl : d.lookahead ≠ endMark)
    (hu : p.Vanishes u (c.expand p.grammar (p.grammar.body top.symbol i)).symbols)
    (hfirst : ∀ t, p.grammar.indexOf? [d.lookahead] = some t → t ∉ p.facts.firstSeq u) :
    ∃ u', p.Vanishes u' c.symbols ∧
      ∀ t, p.grammar.indexOf? [d.lookahead] = some t → t ∉ p.facts.firstSeq u' := by
  rw [hc] at hi
  obtain ⟨t, ht, hget⟩ := Option.bind_eq_some_iff.1 hi
  obtain ⟨hr, hclaimed⟩ := hp.mem_rules_of_get? hget
  have hne : t ≠ p.grammar.endMark := by
    rintro rfl
    obtain ⟨hmem, hcode⟩ := indexOf?_eq_some ht
    obtain ⟨hmem', hcode'⟩ := indexOf?_eq_some hp.wellFormed.indexOf?_endMark
    exact hl ((code_inj hmem hmem').1 (hcode.symm.trans hcode'))
  rw [symbols_expand hs] at hu
  obtain ⟨u', hu', hfirst'⟩ := hp.exists_vanishes_of_expand hr hclaimed hne hu (hfirst t ht)
  rw [← symbols_of_cons hs] at hu'
  refine ⟨u', hu', fun t' ht' => ?_⟩
  rwa [← Option.some.inj (ht.symm.trans ht')]

theorem Compiled.exists_rule_of_vanishes (hp : p.Compiled) (hA : p.facts.isNullable A = true)
    (hfollowed : p.grammar.Followed (A :: symbols)) (h : p.Vanishes u symbols) :
    ∃ body, (A, body) ∈ p.grammar.rules ∧ p.facts.isNullableSeq body = true ∧
      p.grammar.endMark ∈ p.facts.claimed A body := by
  obtain ⟨hnull, v, rfl⟩ := h
  -- What stands before the end mark vanishes, so the end mark follows `A`.
  have hfirst : p.grammar.endMark ∈ p.facts.firstSeq (u ++ p.grammar.endMark :: v) := by
    refine Facts.mem_firstSeq_append.2 (Or.inr ⟨hnull, Facts.mem_firstSeq_cons.2 (Or.inl ?_)⟩)
    exact (hp.mem_firstOf_terminal hp.isTerminal_endMark).2 rfl
  have hfollow : p.grammar.endMark ∈ p.facts.followOf A := by
    rw [hp.facts_eq] at hfirst ⊢
    exact hfollowed.1 (hp.isTerminal_eq_false_of_isNullable hA) _ hfirst
  rw [hp.facts_eq, isNullable_iff hp.wellFormed, ← hp.facts_eq] at hA
  obtain ⟨body, hr, hbody⟩ := hA
  exact ⟨body, hr, hbody, Facts.mem_claimed.2 (Or.inr ⟨hbody, hfollow⟩)⟩

theorem Compiled.indexOf?_lookahead (hp : p.Compiled) (hrest : c.rest = []) :
    p.grammar.indexOf? [c.lookahead] = some p.grammar.endMark := by
  rw [lookahead, hrest, List.headD_nil]
  exact hp.wellFormed.indexOf?_endMark

/-- **A move at the end of the input**, where only symbols that vanish stand before an end mark,
expands the first of them by the production that vanishes. -/
theorem Compiled.exists_vanishes_apply (hp : p.Compiled) (hm : p.move? c = .ok m)
    (hrest : c.rest = []) (hfollowed : p.grammar.Followed c.symbols)
    (h : p.Vanishes u c.symbols) :
    (c.apply p.grammar m).rest = [] ∧ (c.apply p.grammar m).cursor = c.cursor ∧
      ∃ u', p.Vanishes u' (c.apply p.grammar m).symbols := by
  obtain ⟨top, stack, hs, hend, hmove⟩ := move?_eq_ok hm
  rw [symbols_of_cons hs] at h hfollowed
  obtain ⟨u', hA, hu'⟩ := h.exists_cons hend
  have hterm := hp.isTerminal_eq_false_of_isNullable hA
  obtain ⟨body, hr, hbody, hclaimed⟩ := hp.exists_rule_of_vanishes hA hfollowed hu'
  obtain ⟨-, i, hi, rfl⟩ | ⟨ha, -, -⟩ := hmove
  · rw [choice?_eq (hp.indexOf?_lookahead hrest)] at hi
    obtain ⟨hr', hclaimed'⟩ := hp.mem_rules_of_get? hi
    obtain rfl := hp.eq_of_mem_claimed hr hr' hclaimed hclaimed'
    obtain ⟨hnull, v, hv⟩ := hu'
    have hexpand := expand_eq hs p.grammar (p.grammar.body top.symbol i)
    show (c.expand p.grammar _).rest = [] ∧ (c.expand p.grammar _).cursor = c.cursor ∧
      ∃ u', p.Vanishes u' (c.expand p.grammar _).symbols
    refine ⟨by rw [hexpand, hrest], by rw [hexpand], p.grammar.body top.symbol i ++ u', ?_⟩
    rw [symbols_expand hs, hv, ← List.append_assoc]
    exact ⟨Facts.isNullableSeq_append.2 ⟨hbody, hnull⟩, v, rfl⟩
  · exact absurd (hterm.symm.trans ha) Bool.false_ne_true

/-- **Where only symbols that vanish are left** before an end mark, at the end of the input, a run
comes to its end at an end mark. -/
theorem Compiled.stop_of_vanishes (hp : p.Compiled) (h : p.Moves n c d)
    (hstop : p.move? d = .error stop) (hrest : c.rest = [])
    (hfollowed : p.grammar.Followed c.symbols) (hu : p.Vanishes u c.symbols) :
    stop = .atEndMark ∧ d.cursor = c.cursor := by
  obtain ⟨hrest, hcursor, hfollowed, u, hu⟩ := h.invariant
    (P := fun e => e.rest = [] ∧ e.cursor = c.cursor ∧ p.grammar.Followed e.symbols ∧
      ∃ u, p.Vanishes u e.symbols)
    (fun e m ⟨hrest, hcursor, hfollowed, u, hu⟩ hm => by
      obtain ⟨hrest', hcursor', hu'⟩ := hp.exists_vanishes_apply hm hrest hfollowed hu
      exact ⟨hrest', hcursor'.trans hcursor, hp.followed_apply hm hfollowed, hu'⟩)
    ⟨hrest, rfl, hfollowed, u, hu⟩
  refine ⟨?_, hcursor⟩
  cases hs : d.stack with
  | nil =>
    rw [move?_nil hs] at hstop
    exact (Except.error.inj hstop).symm
  | cons top stack =>
    by_cases hend : top.symbol = p.grammar.endMark
    · rw [move?_endMark hs hend] at hstop
      exact (Except.error.inj hstop).symm
    · exfalso
      rw [symbols_of_cons hs] at hfollowed hu
      obtain ⟨u', hA, hu'⟩ := hu.exists_cons hend
      obtain ⟨body, hr, -, hclaimed⟩ := hp.exists_rule_of_vanishes hA hfollowed hu'
      obtain ⟨i, hi, -⟩ := hp.exists_get? hr hclaimed
      rw [move?_expand hs hend (hp.isTerminal_eq_false_of_isNullable hA)
        ((choice?_eq (hp.indexOf?_lookahead hrest) _).trans hi)] at hstop
      cases hstop

/-! ## The consumed input alone -/

/-- **The moves on the consumed input alone.** If moves lead to an end mark before the end of the
input, then without what is left of it they lead to where the rest is consumed, and there only
symbols that vanish stand before an end mark. -/
theorem Compiled.exists_moves_take (hp : p.Compiled) (h : p.Moves n c d)
    (hd : p.Vanishes [] d.symbols) (hl : d.lookahead ≠ endMark) :
    ∃ w, c.rest = w ++ d.rest ∧ d.cursor = c.cursor + w.length ∧
      (w = [] → ∃ u, p.Vanishes u c.symbols ∧
        ∀ t, p.grammar.indexOf? [d.lookahead] = some t → t ∉ p.facts.firstSeq u) ∧
      ∃ k e u, p.Moves k (c.withRest w) e ∧ e.rest = [] ∧ e.cursor = d.cursor ∧
        p.Vanishes u e.symbols := by
  induction h with
  | refl d =>
    exact ⟨[], rfl, rfl, fun _ => ⟨[], hd, fun t _ => IndexSet.notMem_empty⟩, 0, d.withRest [], [],
      .refl _, rfl, rfl, hd⟩
  | @step n c d m hm _ ih =>
    obtain ⟨w, hw, hcursor, hvanishes, k, e, u, hmoves, hrest, hcursor', hu⟩ := ih hd hl
    obtain ⟨top, stack, hs, hend, ⟨-, i, hi, rfl⟩ | ⟨-, hindex, rfl⟩⟩ := move?_eq_ok hm
    · have hexpand := expand_eq hs p.grammar (p.grammar.body top.symbol i)
      change (c.expand p.grammar _).rest = _ at hw
      change _ = (c.expand p.grammar _).cursor + _ at hcursor
      change p.Moves k ((c.expand p.grammar _).withRest w) e at hmoves
      rw [hexpand] at hw hcursor
      rw [← expand_withRest] at hmoves
      cases w with
      | nil =>
        -- Nothing is consumed from here on, so the expansion is undone and not repeated.
        obtain ⟨u, hu, hfirst⟩ := hvanishes rfl
        obtain ⟨u', hu', hfirst'⟩ := hp.exists_vanishes_before hs hi (lookahead_congr hw) hl hu hfirst
        exact ⟨[], hw, hcursor, fun _ => ⟨u', hu', hfirst'⟩, 0, c.withRest [], u', .refl _, rfl,
          hcursor.symm, hu'⟩
      | cons y w =>
        have hlook : (y :: w).headD endMark = c.lookahead := by rw [lookahead, hw]; rfl
        exact ⟨y :: w, hw, hcursor, by simp, k + 1, e, u,
          .step ((move?_withRest hlook).trans hm) hmoves, hrest, hcursor', hu⟩
    · change c.rest.tail = _ at hw
      change _ = c.cursor + 1 + _ at hcursor
      refine ⟨c.lookahead :: w, by rw [hp.rest_eq_cons hindex hend, hw]; rfl, ?_, by simp, k + 1, e,
        u, .step ((move?_withRest rfl).trans hm) hmoves, hrest, hcursor', hu⟩
      rw [hcursor, List.length_cons]
      omega

/-! ## The parse of the consumed input -/

theorem Compiled.run_of_trailingInput (hp : p.Compiled) {position length : ℕ}
    (he : p.parse input = .error (.trailingInput position length)) :
    (p.run input).stop = .atEndMark ∧ (p.run input).last.cursor = position ∧
      length = input.length ∧ position ≠ length := by
  rcases parse_eq_error he with hfailed | ⟨hend, hne, hcause⟩
  · rcases (hp.failed_run hfailed).2 with ⟨_, h⟩ | ⟨_, h⟩ <;> cases h
  · cases hcause
    exact ⟨hend, rfl, rfl, hne⟩

theorem vanishes_of_stop (hp : p.Compiled) (hg : p.grammar = g.number s) (hs : g.start? = some s)
    (h : p.Moves n (.initial p.grammar input) d) (hstop : p.move? d = .error .atEndMark) :
    p.Vanishes [] d.symbols := by
  refine ⟨rfl, ?_⟩
  rcases move?_eq_atEndMark hstop with hnil | ⟨top, stack, hstack, hend⟩
  · obtain ⟨done, ps, hsplit⟩ := (valid_moves hp hg hs h).split
    rw [hsplit.stack_eq] at hnil
    simp at hnil
  · exact ⟨stack.map (·.symbol), by rw [symbols_of_cons hstack, hend]; rfl⟩

theorem Compiled.exists_parse_take (hp : p.Compiled) (hg : p.grammar = g.number s)
    (hs : g.start? = some s) (hend : (p.run input).stop = .atEndMark) :
    (p.run input).last.cursor ≤ input.length ∧
      ∃ f, p.parse (input.take (p.run input).last.cursor) = .ok f := by
  obtain ⟨-, hmoves, hstop⟩ := hp.moves_run input
  rw [hend] at hstop
  by_cases hl : (p.run input).last.lookahead = endMark
  · -- The symbol left over is itself `$`, so nothing changes when the input ends before it.
    obtain ⟨u, hinput, hcursor, -, hrun⟩ := hp.run_append input
    obtain ⟨hlast, hend'⟩ := hrun [] (by rw [hl]; rfl)
    have htake : input.take u.length = u := by rw [hinput]; simp
    rw [List.append_nil] at hlast hend'
    rw [hcursor, htake, parse, Run.result, hend', hend, hlast]
    refine ⟨by rw [hinput, List.length_append]; omega, (p.run input).last.forest, ?_⟩
    exact if_pos hcursor
  · obtain ⟨w, hinput, hcursor, -, k, e, u, hmoves', hrest, hcursor', hu⟩ :=
      hp.exists_moves_take hmoves (vanishes_of_stop hp hg hs hmoves hstop) hl
    replace hinput : input = w ++ (p.run input).last.rest := hinput
    replace hcursor : (p.run input).last.cursor = w.length := hcursor.trans (Nat.zero_add _)
    replace hmoves' : p.Moves k (.initial p.grammar w) e := hmoves'
    have htake : input.take w.length = w := by rw [hinput]; simp
    obtain ⟨j, -, d, stop, hmoves'', hstop'⟩ := haltsWithin_of_length hp e
    obtain ⟨rfl, hcursor''⟩ := hp.stop_of_vanishes hmoves'' hstop' hrest
      (followed_of_moves hp hg hmoves') hu
    rw [hcursor, htake]
    refine ⟨by rw [hinput, List.length_append]; omega, d.forest, ?_⟩
    exact hp.parse_eq_of_moves (hmoves'.trans hmoves'') hstop' (by rw [hcursor'', hcursor', hcursor])

/-- **Trailing input** begins where a parse would have been successful. If a parse fails as there is
more input than expected, it fails before the end of the input, and the input up to there is
parsed. -/
theorem parse_take (h : g.compile = .ok p) {position length : ℕ}
    (he : p.parse input = .error (.trailingInput position length)) :
    length = input.length ∧ position < length ∧ ∃ f, p.parse (input.take position) = .ok f := by
  obtain ⟨s, hs, hg, hp⟩ := Grammar.compile_eq_ok h
  obtain ⟨hend, rfl, rfl, hne⟩ := hp.run_of_trailingInput he
  obtain ⟨hle, hparse⟩ := hp.exists_parse_take hg hs hend
  exact ⟨rfl, by omega, hparse⟩

/-- On `ba` the nonterminal vanishes on the symbol that is left over, and on the empty input it
vanishes on `$`. -/
theorem parse_take_nested : ∃ p, Grammar.nested.compile = .ok p ∧
    p.parse ['b', 'a'] = .error (.trailingInput 0 2) ∧
    2 = ['b', 'a'].length ∧ 0 < 2 ∧ ∃ f, p.parse (['b', 'a'].take 0) = .ok f := by
  have hparse : (Grammar.nested.compile.bind fun p => p.parse ['b', 'a']) =
      .error (.trailingInput 0 2) := by
    decide +kernel
  obtain ⟨p, hp, he⟩ := exists_parse_error (by decide +kernel) hparse
  exact ⟨p, hp, he, parse_take hp he⟩

end Parser

end PredictiveParsing
