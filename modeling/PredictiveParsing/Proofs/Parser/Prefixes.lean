import Mathlib
import PredictiveParsing.Proofs.Derivations
import PredictiveParsing.Proofs.Facts.Derivations
import PredictiveParsing.Proofs.Parser.SententialForms
import PredictiveParsing.Proofs.Parser.Termination

/-!
# Where errors are found

A parser never consumes a symbol that cannot stand where it stands. When it stops with an error,
what it has consumed begins something that the start symbol derives, and what it has consumed
together with the next symbol begins nothing of the kind.

The pending symbols derive whatever the start symbol derives after the consumed input: the table
chooses the only production with which the lookahead can come next, and a production that vanishes
on a wrong lookahead takes nothing away that could have been derived.

* `derives_of_expand`, `derives_of_consume`: what the two kinds of moves keep;
* `Consumes`, **`exists_consumes`**: what any number of moves keep; `derives_of_moves_initial`: what
  they keep from the start;
* `eq_endMark_of_stop`: a run never stops where the lookahead can come next, except at the end;
* **`earliest_error`**: errors are found at the first symbol at which they can be.
-/

namespace PredictiveParsing

namespace Parser

open NumberedGrammar

variable {p : Parser} {c d : Config} {m : Move} {top : Pending} {stack : List Pending}
  {A t n i : ℕ} {body symbols rest : List ℕ} {stop : Stop}

/-! ## What the moves keep -/

theorem Compiled.isTerminal_of_mem_claimed (hp : p.Compiled) (hr : (A, body) ∈ p.grammar.rules)
    (ht : t ∈ p.facts.claimed A body) : p.grammar.isTerminal t = true := by
  rw [hp.facts_eq, Facts.mem_claimed, mem_firstSeq_iff_begins hp.wellFormed,
    mem_followOf_iff_follows hp.wellFormed (hp.lt_of_mem_rules hr)] at ht
  exact ht.elim And.left fun h => h.2.1

theorem Compiled.mem_claimed_of_derives (hp : p.Compiled) (hr : (A, body) ∈ p.grammar.rules)
    (hterm : p.grammar.isTerminal t = true) (hfollowed : p.grammar.Followed (A :: symbols))
    (h : p.grammar.Derives (body ++ symbols) (t :: rest)) : t ∈ p.facts.claimed A body := by
  have hA := not_isTerminal_iff.2 (hp.lt_of_mem_rules hr)
  have hfirst := (mem_firstSeq_iff_begins hp.wellFormed).2 ⟨hterm, rest, h⟩
  rw [hp.facts_eq, Facts.mem_claimed]
  exact (Facts.mem_firstSeq_append.1 hfirst).imp_right (And.imp_right (hfollowed.1 hA t))

theorem Compiled.notMem_rules_of_isTerminal (hp : p.Compiled)
    (ht : p.grammar.isTerminal t = true) (body : List ℕ) : (t, body) ∉ p.grammar.rules := by
  intro hr
  have hlt := not_isTerminal_iff.2 (hp.lt_of_mem_rules hr)
  exact Bool.false_ne_true (hlt.symm.trans ht)

theorem ne_of_isTerminal (hA : p.grammar.isTerminal A = false)
    (ht : p.grammar.isTerminal t = true) : A ≠ t := by
  rintro rfl
  exact Bool.false_ne_true (hA.symm.trans ht)

theorem Compiled.followed_apply (hp : p.Compiled) (hm : p.move? c = .ok m)
    (h : p.grammar.Followed c.symbols) : p.grammar.Followed (c.apply p.grammar m).symbols := by
  obtain ⟨top, stack, hs, -, ⟨-, i, hi, rfl⟩ | ⟨-, -, rfl⟩⟩ := move?_eq_ok hm
  · obtain ⟨t, -, hget⟩ := Option.bind_eq_some_iff.1 hi
    rw [Config.symbols_of_cons hs] at h
    change p.grammar.Followed (c.expand p.grammar _).symbols
    rw [Config.symbols_expand hs]
    exact h.expand hp.wellFormed (u := []) (hp.mem_rules_of_get? hget).1
  · rw [Config.symbols_of_cons hs] at h
    change p.grammar.Followed c.consume.symbols
    rw [Config.symbols_consume hs]
    exact h.2

/-- **An expansion keeps what begins with the lookahead**, as no other production leads there. -/
theorem Compiled.derives_of_expand (hp : p.Compiled) (hs : c.stack = top :: stack)
    (hfollowed : p.grammar.Followed c.symbols)
    (hi : p.choice? top.symbol c.lookahead = some i)
    (hl : p.grammar.indexOf? [c.lookahead] = some t)
    (h : p.grammar.Derives c.symbols (t :: rest)) :
    p.grammar.Derives (c.expand p.grammar (p.grammar.body top.symbol i)).symbols (t :: rest) := by
  rw [choice?_eq hl] at hi
  obtain ⟨hr, ht⟩ := hp.mem_rules_of_get? hi
  have hterm := hp.isTerminal_of_mem_claimed hr ht
  have hne := ne_of_isTerminal (not_isTerminal_iff.2 (hp.lt_of_mem_rules hr)) hterm
  rw [Config.symbols_of_cons hs] at h hfollowed
  obtain ⟨body, hbody, hder⟩ := h.exists_rule hne
  obtain rfl := hp.eq_of_mem_claimed hbody hr
    (hp.mem_claimed_of_derives hbody hterm hfollowed hder) ht
  rwa [Config.symbols_expand hs]

/-- **Consuming keeps what comes after the terminal**, which nothing can replace. -/
theorem Compiled.derives_of_consume (hp : p.Compiled) (hs : c.stack = top :: stack)
    (ha : p.grammar.isTerminal top.symbol = true)
    (h : p.grammar.Derives c.symbols (t :: rest)) :
    t = top.symbol ∧ p.grammar.Derives c.consume.symbols rest := by
  rw [Config.symbols_of_cons hs] at h
  obtain ⟨_, heq, hder⟩ := h.exists_of_cons (hp.notMem_rules_of_isTerminal ha)
  obtain ⟨rfl, rfl⟩ := List.cons.inj heq
  rw [Config.symbols_consume hs]
  exact ⟨rfl, hder⟩

/-- **What is kept between two configurations** while `w` is consumed. Whatever the pending symbols
of the first one derive that begins with `w` and the next lookahead, those of the second one derive
without `w`. -/
structure Consumes (p : Parser) (w : Text) (c d : Config) : Prop where
  rest_eq : c.rest = w ++ d.rest
  cursor_eq : d.cursor = c.cursor + w.length
  back : ∀ t rest, p.grammar.indexOf? [d.lookahead] = some t →
    p.grammar.Derives c.symbols (w.map p.grammar.code ++ t :: rest) →
      p.grammar.Derives d.symbols (t :: rest)

theorem Consumes.refl (p : Parser) (c : Config) : p.Consumes [] c c where
  rest_eq := rfl
  cursor_eq := rfl
  back _ _ _ hder := hder

theorem exists_eq_cons {w : Text} {t' : ℕ} (hrest : c.rest = w ++ d.rest)
    (hl : p.grammar.indexOf? [c.lookahead] = some t)
    (hl' : p.grammar.indexOf? [d.lookahead] = some t') (rest : List ℕ) :
    ∃ rest', w.map p.grammar.code ++ t' :: rest = t :: rest' := by
  cases w with
  | nil =>
    rw [Config.lookahead_congr hrest] at hl
    obtain rfl := Option.some.inj (hl.symm.trans hl')
    exact ⟨rest, rfl⟩
  | cons y w =>
    rw [Config.lookahead, hrest] at hl
    obtain rfl := (indexOf?_eq_some hl).2
    exact ⟨_, rfl⟩

theorem Consumes.expand {w : Text} (hp : p.Compiled) (hs : c.stack = top :: stack)
    (hfollowed : p.grammar.Followed c.symbols)
    (hi : p.choice? top.symbol c.lookahead = some i)
    (h : p.Consumes w (c.expand p.grammar (p.grammar.body top.symbol i)) d) :
    p.Consumes w c d := by
  obtain ⟨t, hl, hget⟩ := Option.bind_eq_some_iff.1 hi
  have hexpand := Config.expand_eq hs p.grammar (p.grammar.body top.symbol i)
  have hrest : c.rest = w ++ d.rest := by rw [← h.rest_eq, hexpand]
  refine ⟨hrest, by rw [h.cursor_eq, hexpand], fun t' rest hl' hder => ?_⟩
  obtain ⟨rest', hw⟩ := exists_eq_cons hrest hl hl' rest
  refine h.back t' rest hl' ?_
  rw [hw] at hder ⊢
  exact hp.derives_of_expand hs hfollowed hi hl hder

theorem Consumes.consume {w : Text} (hp : p.Compiled) (hs : c.stack = top :: stack)
    (hend : top.symbol ≠ p.grammar.endMark) (ha : p.grammar.isTerminal top.symbol = true)
    (hl : p.grammar.indexOf? [c.lookahead] = some top.symbol) (h : p.Consumes w c.consume d) :
    p.Consumes (c.lookahead :: w) c d := by
  have hrest : c.rest.tail = w ++ d.rest := h.rest_eq
  refine ⟨by rw [hp.rest_eq_cons hl hend, hrest]; rfl, ?_, fun t' rest hl' hder =>
    h.back t' rest hl' (hp.derives_of_consume hs ha hder).2⟩
  rw [h.cursor_eq, List.length_cons, Nat.add_comm w.length, ← Nat.add_assoc]
  rfl

/-- **Any number of moves** keeps this. -/
theorem Compiled.exists_consumes (hp : p.Compiled) (h : p.Moves n c d)
    (hfollowed : p.grammar.Followed c.symbols) : ∃ w, p.Consumes w c d := by
  -- From the last move back to the first, as the lookahead that counts is the one at the end.
  induction h with
  | refl c => exact ⟨[], .refl p c⟩
  | step hm _ ih =>
    obtain ⟨w, hw⟩ := ih (hp.followed_apply hm hfollowed)
    obtain ⟨top, stack, hs, hend, ⟨-, i, hi, rfl⟩ | ⟨ha, hl, rfl⟩⟩ := move?_eq_ok hm
    · exact ⟨w, hw.expand hp hs hfollowed hi⟩
    · exact ⟨_, hw.consume hp hs hend ha hl⟩

/-! ## Where a run stops -/

/-- **A run never stops where the lookahead can come next**, except at the end mark. -/
theorem Compiled.eq_endMark_of_stop (hp : p.Compiled) (hstop : p.move? c = .error stop)
    (hfollowed : p.grammar.Followed c.symbols) (hl : p.grammar.indexOf? [c.lookahead] = some t)
    (hterm : p.grammar.isTerminal t = true) (h : p.grammar.Derives c.symbols (t :: rest)) :
    stop = .atEndMark ∧ t = p.grammar.endMark := by
  cases hs : c.stack with
  | nil =>
    rw [Config.symbols, hs] at h
    exact absurd h.eq_nil (List.cons_ne_nil _ _)
  | cons top stack =>
    by_cases hend : top.symbol = p.grammar.endMark
    · have ha : p.grammar.isTerminal top.symbol = true := by
        rw [hend]
        exact isTerminal_iff.2 hp.wellFormed.le_endMark
      rw [move?_endMark hs hend] at hstop
      exact ⟨(Except.error.inj hstop).symm, (hp.derives_of_consume hs ha h).1.trans hend⟩
    · exfalso
      cases htop : p.grammar.isTerminal top.symbol with
      | true =>
        obtain ⟨rfl, -⟩ := hp.derives_of_consume hs htop h
        rw [move?_consume hs hend htop hl] at hstop
        cases hstop
      | false =>
        rw [Config.symbols_of_cons hs] at h hfollowed
        obtain ⟨body, hbody, hder⟩ := h.exists_rule (ne_of_isTerminal htop hterm)
        obtain ⟨i, hi, -⟩ := hp.exists_get? hbody
          (hp.mem_claimed_of_derives hbody hterm hfollowed hder)
        rw [move?_expand hs hend htop ((choice?_eq hl _).trans hi)] at hstop
        cases hstop

theorem move?_eq_failed {e : Error} (h : p.move? c = .error (.failed e)) :
    (∃ expected, e = .unexpectedToken c.lookahead expected) ∨
      ∃ name, e = .noTransition name c.lookahead := by
  cases hs : c.stack with
  | nil => rw [move?_nil hs] at h; cases h
  | cons top stack =>
    rw [move?_cons hs] at h
    split_ifs at h with hend
    · cases h
    · cases h
      exact Or.inl ⟨_, rfl⟩
    · split at h
      · cases h
      · cases h
        exact Or.inr ⟨_, rfl⟩

theorem parse_eq_error {input : Text} {e : Error} (h : p.parse input = .error e) :
    (p.run input).stop = .failed e ∨
      ((p.run input).stop = .atEndMark ∧ (p.run input).last.cursor ≠ input.length ∧
        e = .trailingInput (p.run input).last.cursor input.length) := by
  rw [parse, Run.result] at h
  split at h
  · next hstop =>
    cases h
    exact Or.inl hstop
  · next hstop =>
    split_ifs at h with hcursor
    cases h
    exact Or.inr ⟨hstop, hcursor, rfl⟩

/-! ## Prefixes of what is derived -/

section

open Grammar (mem_names_start)

variable {g : Grammar} {s : Char} {input : Text}

theorem followed_of_moves (hp : p.Compiled) (hg : p.grammar = g.number s)
    (h : p.Moves n (.initial p.grammar input) c) : p.grammar.Followed c.symbols := by
  refine h.invariant (P := fun c => p.grammar.Followed c.symbols)
    (fun c m hc hm => hp.followed_apply hm hc) ?_
  have hrule := Grammar.augmented_mem_rules (g := g) (s := s)
  rw [← hg] at hrule
  exact followed_of_derives hp.wellFormed (derives_of_mem_rules hrule)

/-- **The moves from the start.** The symbols consumed by them begin something that the start symbol
and the end mark derive; and whatever these derive that begins so and goes on with the lookahead,
the pending symbols derive without what is consumed. -/
theorem derives_of_moves_initial (hp : p.Compiled) (hg : p.grammar = g.number s)
    (hs : g.start? = some s) (h : p.Moves n (.initial p.grammar input) c) :
    ∃ u, input = u ++ c.rest ∧ c.cursor = u.length ∧ (∃ v, g.Derives [s, endMark] (u ++ v)) ∧
      ∀ v, [c.lookahead] ∈ p.grammar.names → g.Derives [s, endMark] (u ++ c.lookahead :: v) →
        p.grammar.Derives c.symbols ((c.lookahead :: v).map p.grammar.code) := by
  have hmem := Grammar.start_mem_nonterminals hs
  obtain ⟨u, hinput, hcursor, hback⟩ :=
    hp.exists_consumes h (followed_of_moves hp hg (.refl _))
  rw [symbols_initial hg hs] at hback
  replace hinput : input = u ++ c.rest := hinput
  replace hcursor : c.cursor = u.length := hcursor.trans (Nat.zero_add _)
  refine ⟨u, hinput, hcursor, ⟨c.symbols.map p.grammar.label, ?_⟩, fun v hl hder => ?_⟩
  · have hder := (derivesLeft_of_moves hp hg hs h).derives
    rwa [Config.form, hinput, List.take_left' hcursor.symm] at hder
  · refine hback _ _ (indexOf?_code hl) ?_
    have hcode := hder.code hmem
    rwa [List.map_append, ← hg] at hcode

/-- **Errors are found at the first symbol at which they can be.** Where a parse stops with an
error, the consumed symbols `u` begin something that the start symbol and the end mark derive, and
unless the next symbol is the letter of a nonterminal, nothing that they derive begins with `u` and
the next symbol. Behind the input comes the end mark; the symbol that an error finds is the next
one. -/
theorem earliest_error {e : Error} (h : g.compile = .ok p) (hend : endMark ∉ input)
    (he : p.parse input = .error e) :
    ∃ s u rest, g.start? = some s ∧ input = u ++ rest ∧ (p.run input).last.cursor = u.length ∧
      ((∃ expected, e = .unexpectedToken (rest.headD endMark) expected) ∨
        (∃ A, e = .noTransition A (rest.headD endMark)) ∨
          (rest ≠ [] ∧ e = .trailingInput u.length input.length)) ∧
      (∃ v, g.Derives [s, endMark] (u ++ v)) ∧
      (rest.headD endMark ∉ g.nonterminals →
        ∀ v, ¬ g.Derives [s, endMark] (u ++ rest.headD endMark :: v)) := by
  obtain ⟨s, hs, hg, hp⟩ := Grammar.compile_eq_ok h
  have hmem := Grammar.start_mem_nonterminals hs
  obtain ⟨-, hmoves, hstop⟩ := hp.moves_run input
  obtain ⟨u, hinput, hcursor, hprefix, hback⟩ := derives_of_moves_initial hp hg hs hmoves
  have hrest : (p.run input).stop = .atEndMark → (p.run input).last.rest ≠ [] := by
    intro hatEnd hnil
    rcases parse_eq_error he with hfailed | ⟨-, hne, -⟩
    · exact absurd (hatEnd.symm.trans hfailed) nofun
    · rw [hcursor, hinput, hnil, List.append_nil] at hne
      exact hne rfl
  refine ⟨s, u, (p.run input).last.rest, hs, hinput, hcursor, ?_, hprefix, fun hletter v hder => ?_⟩
  · rcases parse_eq_error he with hfailed | ⟨hatEnd, -, rfl⟩
    · rw [hfailed] at hstop
      exact (move?_eq_failed hstop).imp_right Or.inl
    · exact Or.inr (Or.inr ⟨hrest hatEnd, by rw [hcursor]⟩)
  · change ¬ (p.run input).last.lookahead ∈ g.nonterminals at hletter
    change g.Derives _ (u ++ (p.run input).last.lookahead :: v) at hder
    have hname := hder.mem_names hmem (mem_names_start hmem) _
      (List.mem_append_right _ List.mem_cons_self)
    have hterm := (Grammar.isTerminal_code hmem hname).2 hletter
    rw [← hg] at hname hterm
    obtain ⟨hatEnd, hcode⟩ := hp.eq_endMark_of_stop hstop (followed_of_moves hp hg hmoves)
      (indexOf?_code hname) hterm (hback v hname hder)
    obtain ⟨y, ys, hy⟩ := List.exists_cons_of_ne_nil (hrest hatEnd)
    rw [hg] at hname hcode
    rw [← Grammar.code_endMark hmem, code_inj hname (Grammar.endMark_mem_names hmem),
      Config.lookahead, hy, List.headD_cons] at hcode
    rw [hinput, hy, hcode] at hend
    exact hend (List.mem_append_right _ List.mem_cons_self)

theorem exists_parse_error {e : Error} (hcompile : g.compile.toOption.isSome = true)
    (h : (g.compile.bind fun p => p.parse input) = .error e) :
    ∃ p, g.compile = .ok p ∧ p.parse input = .error e := by
  obtain ⟨p, hp⟩ := Grammar.exists_compile hcompile
  rw [hp] at h
  exact ⟨p, hp, h⟩

/-- On `ba` the nonterminal vanishes, as `b` can follow it elsewhere, and the error is found at `b`
all the same: nothing that `S$` derives begins with `b`. -/
theorem earliest_error_nested : ∃ p, Grammar.nested.compile = .ok p ∧ endMark ∉ ['b', 'a'] ∧
    p.parse ['b', 'a'] = .error (.trailingInput 0 2) ∧
    ∀ v, ¬ Grammar.nested.Derives ['S', endMark] ('b' :: v) := by
  have hparse : (Grammar.nested.compile.bind fun p => p.parse ['b', 'a']) =
      .error (.trailingInput 0 2) := by
    decide +kernel
  obtain ⟨p, hp, he⟩ := exists_parse_error (by decide +kernel) hparse
  have hend : endMark ∉ ['b', 'a'] := by decide
  obtain ⟨s, u, rest, hs, hinput, -, herror, -, hnever⟩ := earliest_error hp hend he
  obtain rfl : 'S' = s := Option.some.inj hs
  obtain ⟨-, hposition⟩ : rest ≠ [] ∧ Error.trailingInput 0 2 = .trailingInput u.length 2 := by
    simpa using herror
  obtain rfl := List.length_eq_zero_iff.1 (Error.trailingInput.inj hposition).1.symm
  obtain rfl : ['b', 'a'] = rest := hinput
  exact ⟨p, hp, hend, he, hnever (by decide)⟩

/-- `S → a`. -/
def single : Grammar where
  rules := [.ofText .letterS ['a']]

/-- **The letter of a nonterminal is no terminal**, although it begins what is derived. For `S → a`
the input `S` is refused at its first symbol, and `S$` derives itself. -/
theorem error_at_letter : ∃ p, single.compile = .ok p ∧ single.start? = some 'S' ∧
    endMark ∉ ['S'] ∧ p.parse ['S'] = .error (.noTransition ['S'] 'S') ∧
    (p.run ['S']).last.cursor = 0 ∧
    ∃ v, single.Derives ['S', endMark] (['S'].take 0 ++ 'S' :: v) := by
  have hparse : (single.compile.bind fun p => p.parse ['S']) =
      .error (.noTransition ['S'] 'S') := by
    decide +kernel
  obtain ⟨p, hp, he⟩ := exists_parse_error (by decide +kernel) hparse
  have hcursor : (single.compile.map fun p => (p.run ['S']).last.cursor) = .ok 0 := by
    decide +kernel
  rw [hp] at hcursor
  exact ⟨p, hp, rfl, by decide, he, Except.ok.inj hcursor, [endMark], .refl _⟩

end

end Parser

end PredictiveParsing
