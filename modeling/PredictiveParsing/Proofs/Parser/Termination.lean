import Mathlib
import PredictiveParsing.Proofs.Parser.Moves

/-!
# Every run comes to an end

On a lookahead, a nonterminal either gives way to the lookahead itself or vanishes. Neither way
expands a nonterminal inside itself: a derivation of a fact about first or about vanishing is no
higher than there are nonterminals, and the parser follows such a derivation, as no other production
claims the lookahead.

* `Parser.Pops`, **`pops_of_within`**: symbols that vanish;
* `Parser.Exposes`, **`exposes_of_within`**: symbols that give way to the lookahead;
* `Parser.RestsWithin`, `restsWithin_phase`: what happens before a symbol is consumed;
* `Parser.HaltsWithin`, **`haltsWithin_of_length`**: what happens on the whole input;
* `Compiled.not_of_progress`: nothing keeps a parser moving;
* **`run_halts`**: no run is stopped by its limit, and no chain of moves goes on for ever.
-/

namespace PredictiveParsing.Parser

variable {p : Parser} {c d : Config} {top : Pending} {stack : List Pending} {t m k X : ℕ}

theorem exists_expand (hp : p.Compiled) {body : List ℕ} (hs : c.stack = top :: stack)
    (hl : p.grammar.indexOf? [c.lookahead] = some t) (hbody : (top.symbol, body) ∈ p.grammar.rules)
    (ht : t ∈ p.facts.claimed top.symbol body) :
    ∃ d, p.Moves 1 c d ∧ d.stack = entries c.forest.size body ++ stack ∧ d.rest = c.rest := by
  refine ⟨_, hp.moves_expand hs hl hbody ht, ?_, ?_⟩
  · rw [Config.expand_eq hs]
  · rw [Config.expand_eq hs]

/-! ## Symbols that vanish -/

/-- On the lookahead `t`, the symbol on top of the stack is gone after at most `m` moves. -/
def Pops (p : Parser) (t m X : ℕ) : Prop :=
  ∀ c top stack, c.stack = top :: stack → top.symbol = X →
    p.grammar.indexOf? [c.lookahead] = some t →
    ∃ n ≤ m, ∃ d, p.Moves n c d ∧ d.stack = stack ∧ d.rest = c.rest

theorem pops_all {es : List Pending} (h : ∀ e ∈ es, p.Pops t m e.symbol)
    (hs : c.stack = es ++ stack) (hl : p.grammar.indexOf? [c.lookahead] = some t) :
    ∃ n ≤ es.length * m, ∃ d, p.Moves n c d ∧ d.stack = stack ∧ d.rest = c.rest := by
  induction es generalizing c with
  | nil => exact ⟨0, Nat.zero_le _, c, .refl c, hs, rfl⟩
  | cons e es ih =>
    obtain ⟨n, hn, d, hd, hstack, hrest⟩ := h e List.mem_cons_self c e (es ++ stack) hs rfl hl
    rw [← Config.lookahead_congr hrest] at hl
    obtain ⟨n', hn', d', hd', hstack', hrest'⟩ :=
      ih (fun e' he' => h e' (List.mem_cons_of_mem _ he')) hstack hl
    refine ⟨n + n', ?_, d', hd.trans hd', hstack', hrest'.trans hrest⟩
    rw [List.length_cons, Nat.succ_mul]
    omega

/-- The number of nodes of a tree of the given height in which no node has more than `width`
children. -/
def nodesWithin (width : ℕ) : ℕ → ℕ
  | 0 => 0
  | height + 1 => 1 + width * nodesWithin width height

theorem nodesWithin_lt (width height : ℕ) :
    nodesWithin width height < (width + 2) ^ height := by
  induction height with
  | zero => exact Nat.one_pos
  | succ height ih =>
    have h : width * (nodesWithin width height + 1) ≤ width * (width + 2) ^ height :=
      Nat.mul_le_mul_left width ih
    have hpos : 0 < (width + 2) ^ height := Nat.pow_pos (by omega)
    rw [nodesWithin, pow_succ, Nat.mul_comm _ (width + 2), Nat.add_mul]
    rw [Nat.mul_add, Nat.mul_one] at h
    omega

theorem length_le_longestBody {A : ℕ} {body : List ℕ} (h : (A, body) ∈ p.grammar.rules) :
    body.length ≤ p.longestBody := by
  have hmem := List.mem_map_of_mem (f := fun r : ℕ × List ℕ => r.2.length) h
  rw [longestBody, List.foldl_max]
  exact (List.le_max?_getD_of_mem hmem).trans (le_max_right _ _)

/-- **A symbol that can vanish does so**, on a lookahead that follows it and is not first in it: the
moves build the tree by which it vanishes. -/
theorem pops_of_within (hp : p.Compiled) {height : ℕ}
    (h : Within (fun A body => (A, body) ∈ p.grammar.rules) height X)
    (hfirst : t ∉ p.facts.firstOf X) (hfollow : t ∈ p.facts.followOf X) :
    p.Pops t (nodesWithin p.longestBody height) X := by
  induction height generalizing X with
  | zero => exact h.elim
  | succ height ih =>
    obtain ⟨body, hbody, hbelow⟩ := h
    have hnull : p.facts.isNullableSeq body = true :=
      Facts.isNullableSeq_iff.2 fun Y hY => hp.isNullable_of_within (hbelow Y hY)
    have hpops : ∀ Y ∈ body, p.Pops t (nodesWithin p.longestBody height) Y := by
      intro Y hY
      obtain ⟨u, v, rfl⟩ := List.append_of_mem hY
      have huv := Facts.isNullableSeq_append.1 hnull
      have hYv := Facts.isNullableSeq_cons.1 huv.2
      refine ih (hbelow Y hY) (fun ht => hfirst ?_) ?_
      · exact hp.mem_firstOf_of_mem_rules hbody (Facts.mem_firstSeq.2 ⟨u, Y, v, rfl, huv.1, ht⟩)
      · exact hp.mem_followOf_of_mem_rules hbody (hp.isTerminal_eq_false_of_isNullable hYv.1)
          (Or.inr ⟨hYv.2, hfollow⟩)
    rintro c top stack hs rfl hl
    obtain ⟨c', hc', hstack', hrest'⟩ := exists_expand hp hs hl hbody
      (Facts.mem_claimed.2 (Or.inr ⟨hnull, hfollow⟩))
    rw [← Config.lookahead_congr hrest'] at hl
    obtain ⟨n, hn, d, hd, hstack, hrest⟩ := pops_all
      (fun e he => hpops e.symbol (symbol_mem_of_mem_entries he)) hstack' hl
    refine ⟨1 + n, ?_, d, hc'.trans hd, hstack, hrest.trans hrest'⟩
    rw [length_entries] at hn
    have hwidth := Nat.mul_le_mul_right (nodesWithin p.longestBody height)
      (length_le_longestBody hbody)
    rw [nodesWithin]
    omega

/-- The moves in which a symbol can vanish. -/
def vanishCost (p : Parser) : ℕ := nodesWithin p.longestBody p.grammar.nonterminals.length

theorem pops_of_isNullable (hp : p.Compiled) (hX : p.facts.isNullable X = true)
    (hfirst : t ∉ p.facts.firstOf X) (hfollow : t ∈ p.facts.followOf X) :
    p.Pops t p.vanishCost X := by
  refine pops_of_within hp (NumberedGrammar.within_of_isNullable hp.wellFormed ?_) hfirst hfollow
  rw [← hp.facts_eq]
  exact hX

/-! ## Symbols that give way to the lookahead -/

/-- On the lookahead `t`, the symbol on top of the stack gives way to `t` after at most `m` moves,
and at most `k` symbols are pushed below `t`. -/
def Exposes (p : Parser) (t m k X : ℕ) : Prop :=
  ∀ c top stack, c.stack = top :: stack → top.symbol = X →
    p.grammar.indexOf? [c.lookahead] = some t →
    ∃ n ≤ m, ∃ d top' es, p.Moves n c d ∧ d.stack = top' :: (es ++ stack) ∧ top'.symbol = t ∧
      es.length ≤ k ∧ d.rest = c.rest

theorem pops_before (hp : p.Compiled) {u v : List ℕ} {Y : ℕ}
    (hbody : (X, u ++ Y :: v) ∈ p.grammar.rules) (hu : p.facts.isNullableSeq u = true)
    (htY : t ∈ p.facts.firstOf Y) : ∀ Z ∈ u, p.Pops t p.vanishCost Z := by
  intro Z hZ
  obtain ⟨u, w, rfl⟩ := List.append_of_mem hZ
  have hZw := Facts.isNullableSeq_cons.1 (Facts.isNullableSeq_append.1 hu).2
  rw [List.append_assoc] at hbody
  -- The lookahead follows `Z`, so it cannot be first in `Z` as well: that would be a conflict.
  have hfollow : t ∈ p.facts.followOf Z :=
    hp.mem_followOf_of_mem_rules hbody (hp.isTerminal_eq_false_of_isNullable hZw.1)
      (Or.inl (Facts.mem_firstSeq.2 ⟨w, Y, v, rfl, hZw.2, htY⟩))
  have hfirst : t ∉ p.facts.firstOf Z := fun ht =>
    hp.notMem_followOf_of_mem_firstOf hZw.1 ht hfollow
  exact pops_of_isNullable hp hZw.1 hfirst hfollow

theorem exists_moves_down (hp : p.Compiled) {u v : List ℕ} {Y : ℕ} (hs : c.stack = top :: stack)
    (hl : p.grammar.indexOf? [c.lookahead] = some t)
    (hbody : (top.symbol, u ++ Y :: v) ∈ p.grammar.rules)
    (hu : p.facts.isNullableSeq u = true) (htY : t ∈ p.facts.firstOf Y) :
    ∃ n ≤ 1 + p.longestBody * p.vanishCost, ∃ d top' es, p.Moves n c d ∧
      d.stack = top' :: (es ++ stack) ∧ top'.symbol = Y ∧ es.length ≤ p.longestBody ∧
      d.rest = c.rest := by
  obtain ⟨c', hc', hstack', hrest'⟩ := exists_expand hp hs hl hbody
    (Facts.mem_claimed.2 (Or.inl (Facts.mem_firstSeq.2 ⟨u, Y, v, rfl, hu, htY⟩)))
  rw [entries_append, entries_cons, List.append_assoc, List.cons_append] at hstack'
  rw [← Config.lookahead_congr hrest'] at hl
  obtain ⟨n, hn, d, hd, hstack, hrest⟩ := pops_all
    (fun e he => pops_before hp hbody hu htY e.symbol (symbol_mem_of_mem_entries he)) hstack' hl
  have hwidth := length_le_longestBody hbody
  rw [List.length_append, List.length_cons] at hwidth
  rw [length_entries] at hn
  have hcost : u.length * p.vanishCost ≤ p.longestBody * p.vanishCost :=
    Nat.mul_le_mul_right _ (by omega)
  refine ⟨1 + n, by omega, d, _, _, hc'.trans hd, hstack, rfl, ?_, hrest.trans hrest'⟩
  rw [length_entries]
  omega

/-- **A symbol in which the lookahead can stand first** gives way to it: the moves go down a path on
which the lookahead is found. -/
theorem exposes_of_within (hp : p.Compiled) {height : ℕ}
    (h : Within (p.grammar.Clause p.facts t .first) height X) :
    p.Exposes t (height * (1 + p.longestBody * p.vanishCost)) (height * p.longestBody) X := by
  induction height generalizing X with
  | zero => exact h.elim
  | succ height ih =>
    obtain ⟨premises, ⟨_, body, hbody, rfl, u, Y, v, rfl, hu, hY⟩, hbelow⟩ := h
    have htY : t ∈ p.facts.firstOf Y := by
      rcases hY with ⟨hY, rfl, -⟩ | ⟨-, rfl⟩
      · exact (hp.mem_firstOf_terminal hY).2 rfl
      · exact hp.mem_firstOf_of_within (hbelow Y List.mem_cons_self)
    rintro c top stack hs rfl hl
    obtain ⟨n, hn, c', top', es, hc', hstack', htop', hes, hrest'⟩ :=
      exists_moves_down hp hs hl hbody hu htY
    rcases hY with ⟨-, rfl, -⟩ | ⟨-, rfl⟩
    · refine ⟨n, ?_, c', top', es, hc', hstack', htop', ?_, hrest'⟩
      · rw [Nat.succ_mul]
        omega
      · rw [Nat.succ_mul]
        omega
    · rw [← Config.lookahead_congr hrest'] at hl
      obtain ⟨n', hn', d, top, es', hd, hstack, htop, hes', hrest⟩ :=
        ih (hbelow Y List.mem_cons_self) c' top' _ hstack' htop' hl
      refine ⟨n + n', ?_, d, top, es' ++ es, hc'.trans hd, ?_, htop, ?_, hrest.trans hrest'⟩
      · rw [Nat.succ_mul]
        omega
      · rw [hstack, List.append_assoc]
      · rw [List.length_append, Nat.succ_mul]
        omega

theorem exposes_of_mem_firstOf (hp : p.Compiled) (hX : p.grammar.isTerminal X = false)
    (ht : t ∈ p.facts.firstOf X) : p.grammar.isTerminal t = true ∧
      p.Exposes t (p.grammar.nonterminals.length * (1 + p.longestBody * p.vanishCost))
        (p.grammar.nonterminals.length * p.longestBody) X := by
  rw [hp.facts_eq] at ht
  have h := NumberedGrammar.within_of_mem_firstOf hp.wellFormed
    (NumberedGrammar.not_isTerminal_iff.1 hX) ht
  rw [← hp.facts_eq] at h
  exact ⟨NumberedGrammar.isTerminal_of_within h, exposes_of_within hp h⟩

/-! ## Until the next symbol is consumed -/

/-- The symbols that are pushed on the way to the lookahead. -/
def pushed (p : Parser) : ℕ := p.grammar.nonterminals.length * p.longestBody

/-- The moves between two symbols of the input, from a stack of the given height. -/
def phaseCost (p : Parser) (height : ℕ) : ℕ :=
  height * p.vanishCost + p.grammar.nonterminals.length * (1 + p.longestBody * p.vanishCost)

/-- After at most `m` moves, with at most `k` symbols on the stack, the run stops or consumes a
symbol. -/
def RestsWithin (p : Parser) (m k : ℕ) (c : Config) : Prop :=
  ∃ n ≤ m, ∃ d, p.Moves n c d ∧ d.rest = c.rest ∧ d.stack.length ≤ k ∧
    ((∃ stop, p.move? d = .error stop) ∨ (d.rest ≠ [] ∧ p.Moves 1 d d.consume))

theorem stops_or_consumes (hp : p.Compiled) (hs : c.stack = top :: stack)
    (hterm : p.grammar.isTerminal top.symbol = true) :
    (∃ stop, p.move? c = .error stop) ∨ (c.rest ≠ [] ∧ p.Moves 1 c c.consume) := by
  cases hm : p.move? c with
  | error stop => exact Or.inl ⟨stop, rfl⟩
  | ok m =>
    obtain ⟨_, _, hs', hend, ⟨hX, -⟩ | ⟨-, hl, rfl⟩⟩ := move?_eq_ok hm
    · rw [hs] at hs'
      cases hs'
      rw [hterm] at hX
      cases hX
    · exact Or.inr ⟨hp.rest_ne_nil hl hend, .single hm⟩

theorem restsWithin_of_mem_firstOf (hp : p.Compiled) (hs : c.stack = top :: stack)
    (hl : p.grammar.indexOf? [c.lookahead] = some t)
    (hX : p.grammar.isTerminal top.symbol = false) (ht : t ∈ p.facts.firstOf top.symbol) :
    p.RestsWithin (p.phaseCost c.stack.length) (c.stack.length + p.pushed) c := by
  obtain ⟨hterm, hexposes⟩ := exposes_of_mem_firstOf hp hX ht
  obtain ⟨n, hn, d, top', es, hd, hstack, htop, hes, hrest⟩ := hexposes c top stack hs rfl hl
  refine ⟨n, hn.trans (Nat.le_add_left _ _), d, hd, hrest, ?_, ?_⟩
  · rw [hstack, hs, List.length_cons, List.length_cons, List.length_append, pushed]
    omega
  · exact stops_or_consumes hp hstack (htop ▸ hterm)

/-- **Between two symbols of the input** the moves come to an end: the symbols on the stack vanish
one after the other, until one of them gives way to the lookahead. -/
theorem restsWithin_phase (hp : p.Compiled) (c : Config) :
    p.RestsWithin (p.phaseCost c.stack.length) (c.stack.length + p.pushed) c := by
  induction hs : c.stack generalizing c with
  | nil =>
    refine ⟨0, Nat.zero_le _, c, .refl c, rfl, by simp [hs], Or.inl ⟨_, move?_nil hs⟩⟩
  | cons top stack ih =>
    have hheight : c.stack.length ≤ (top :: stack).length + p.pushed := hs ▸ Nat.le_add_right _ _
    cases hm : p.move? c with
    | error stop => exact ⟨0, Nat.zero_le _, c, .refl c, rfl, hheight, Or.inl ⟨stop, hm⟩⟩
    | ok m =>
      obtain ⟨_, _, hs', -, ⟨hX, i, hi, -⟩ | ⟨hterm, -⟩⟩ := move?_eq_ok hm
      · rw [hs] at hs'
        cases hs'
        obtain ⟨t, hl, hget⟩ := Option.bind_eq_some_iff.1 hi
        obtain ⟨hbody, ht⟩ := hp.mem_rules_of_get? hget
        by_cases hfirst : t ∈ p.facts.firstOf top.symbol
        · rw [← hs]
          exact restsWithin_of_mem_firstOf hp hs hl hX hfirst
        · -- The lookahead is claimed as one that follows, so the top symbol vanishes.
          obtain ⟨hnull, hfollow⟩ := (Facts.mem_claimed.1 ht).resolve_left fun h =>
            hfirst (hp.mem_firstOf_of_mem_rules hbody h)
          obtain ⟨n, hn, d, hd, hstack, hrest⟩ :=
            pops_of_isNullable hp (hp.isNullable_of_mem_rules hbody hnull) hfirst hfollow
              c top stack hs rfl hl
          obtain ⟨n', hn', d', hd', hrest', hheight', hstop⟩ := ih d hstack
          refine ⟨n + n', ?_, d', hd.trans hd', hrest'.trans hrest, ?_, hstop⟩
          · rw [phaseCost] at hn' ⊢
            rw [List.length_cons, Nat.succ_mul]
            omega
          · rw [List.length_cons]
            omega
      · rw [hs] at hs'
        cases hs'
        exact ⟨0, Nat.zero_le _, c, .refl c, rfl, hheight, stops_or_consumes hp hs hterm⟩

/-! ## The whole input -/

/-- The run stops after at most `m` moves. -/
def HaltsWithin (p : Parser) (m : ℕ) (c : Config) : Prop :=
  ∃ n ≤ m, ∃ d stop, p.Moves n c d ∧ p.move? d = .error stop

/-- The moves on an input of the given length, from a stack of the given height. -/
def haltCost (p : Parser) : ℕ → ℕ → ℕ
  | 0, height => p.phaseCost height
  | length + 1, height =>
    p.phaseCost height + 1 + p.haltCost length (height + p.pushed)

theorem phaseCost_mono {height height' : ℕ} (h : height ≤ height') :
    p.phaseCost height ≤ p.phaseCost height' :=
  Nat.add_le_add_right (Nat.mul_le_mul_right _ h) _

theorem haltCost_mono {length height height' : ℕ} (h : height ≤ height') :
    p.haltCost length height ≤ p.haltCost length height' := by
  induction length generalizing height height' with
  | zero => exact phaseCost_mono h
  | succ length ih =>
    have hphase := phaseCost_mono (p := p) h
    have hrest := ih (Nat.add_le_add_right h p.pushed)
    rw [haltCost, haltCost]
    omega

/-- **Every configuration comes to its end**, after as many phases as there are symbols left. -/
theorem haltsWithin_of_length (hp : p.Compiled) (c : Config) :
    p.HaltsWithin (p.haltCost c.rest.length c.stack.length) c := by
  induction hlen : c.rest.length generalizing c with
  | zero =>
    obtain ⟨n, hn, d, hd, hrest, -, ⟨stop, hstop⟩ | ⟨hne, -⟩⟩ := restsWithin_phase hp c
    · exact ⟨n, hn, d, stop, hd, hstop⟩
    · exact absurd (hrest.trans (List.length_eq_zero_iff.1 hlen)) hne
  | succ length ih =>
    obtain ⟨n, hn, d, hd, hrest, hheight, ⟨stop, hstop⟩ | ⟨-, hconsume⟩⟩ := restsWithin_phase hp c
    · refine ⟨n, hn.trans ?_, d, stop, hd, hstop⟩
      rw [haltCost]
      omega
    · have htail : d.consume.rest.length = length := by
        change d.rest.tail.length = length
        rw [List.length_tail, hrest, hlen, Nat.add_sub_cancel]
      have hpop : d.consume.stack.length ≤ c.stack.length + p.pushed := by
        change d.stack.tail.length ≤ _
        rw [List.length_tail]
        omega
      obtain ⟨n', hn', d', stop, hd', hstop⟩ := ih d.consume htail
      have hmono : p.haltCost length d.consume.stack.length ≤
          p.haltCost length (c.stack.length + p.pushed) := haltCost_mono hpop
      refine ⟨n + (1 + n'), ?_, d', stop, hd.trans (hconsume.trans hd'), hstop⟩
      rw [haltCost]
      omega

/-- **Nothing keeps a parser moving**: what always leaves room for one more move, and is kept by it,
holds nowhere. -/
theorem Compiled.not_of_progress (hp : p.Compiled) {P : Config → Prop}
    (progress : ∀ c, P c → ∃ d, p.Moves 1 c d ∧ P d) (c : Config) : ¬ P c := by
  obtain ⟨n, -, d, stop, hd, hstop⟩ := haltsWithin_of_length hp c
  induction hd with
  | refl c =>
    intro hc
    obtain ⟨_, hmove, -⟩ := progress c hc
    obtain ⟨m, hm, -⟩ := hmove.exists_move
    rw [hstop] at hm
    cases hm
  | step hm _ ih =>
    intro hc
    obtain ⟨_, hmove, hd⟩ := progress _ hc
    obtain ⟨m', hm', rfl⟩ := hmove.exists_move
    rw [hm] at hm'
    cases hm'
    exact ih hstop hd

/-! ## The limit of a run -/

theorem haltCost_le (length height : ℕ) :
    p.haltCost length height ≤
      (length + 1) * (p.phaseCost (height + length * p.pushed) + 1) := by
  induction length generalizing height with
  | zero =>
    rw [haltCost, Nat.zero_mul, Nat.zero_add, Nat.one_mul, Nat.add_zero]
    exact Nat.le_succ _
  | succ length ih =>
    have hrest := ih (height + p.pushed)
    have hsum : height + p.pushed + length * p.pushed = height + (length + 1) * p.pushed := by ring
    have hphase := phaseCost_mono (p := p) (Nat.le_add_right height ((length + 1) * p.pushed))
    rw [hsum] at hrest
    rw [haltCost, Nat.succ_mul (length + 1)]
    omega

theorem phaseCost_lt (length : ℕ) : p.phaseCost (2 + length * p.pushed) <
    (length + 2) * (p.grammar.nonterminals.length + 2) * (p.longestBody + 2) *
      (p.longestBody + 2) ^ p.grammar.nonterminals.length := by
  have hV : p.vanishCost < (p.longestBody + 2) ^ p.grammar.nonterminals.length :=
    nodesWithin_lt _ _
  rw [phaseCost, pushed]
  generalize p.grammar.nonterminals.length = N at hV ⊢
  generalize p.longestBody = L at hV ⊢
  generalize (L + 2) ^ N = P at hV ⊢
  have hmul : ∀ a : ℕ, a * p.vanishCost ≤ a * P := fun a => Nat.mul_le_mul_left a hV.le
  have h : 2 + length * (N * L) + N * L + (N + 1) ≤ (length + 2) * (N + 2) * (L + 2) := by
    nlinarith [Nat.zero_le (length * N), Nat.zero_le (length * L), Nat.zero_le (N * L)]
  calc (2 + length * (N * L)) * p.vanishCost + N * (1 + L * p.vanishCost)
      = (2 + length * (N * L)) * p.vanishCost + N * (L * p.vanishCost) + N * 1 := by ring
    _ < (2 + length * (N * L)) * P + N * (L * P) + (N + 1) * P :=
        Nat.add_lt_add_of_le_of_lt
          (Nat.add_le_add (hmul _) (Nat.mul_le_mul_left N (hmul L))) (by nlinarith [hV])
    _ = (2 + length * (N * L) + N * L + (N + 1)) * P := by ring
    _ ≤ (length + 2) * (N + 2) * (L + 2) * P := Nat.mul_le_mul_right P h

theorem haltCost_lt_moveLimit (length : ℕ) : p.haltCost length 2 < p.moveLimit length := by
  have hphase := phaseCost_lt (p := p) length
  rw [moveLimit, Nat.pow_eq]
  generalize p.grammar.nonterminals.length = N at hphase ⊢
  generalize p.longestBody = L at hphase ⊢
  have hpos := Nat.zero_lt_of_lt hphase
  calc p.haltCost length 2
      ≤ (length + 1) * (p.phaseCost (2 + length * p.pushed) + 1) := haltCost_le length 2
    _ ≤ (length + 1) * ((length + 2) * (N + 2) * (L + 2) * (L + 2) ^ N) :=
        Nat.mul_le_mul_left _ hphase
    _ < (length + 2) * ((length + 2) * (N + 2) * (L + 2) * (L + 2) ^ N) :=
        Nat.mul_lt_mul_of_pos_right (Nat.lt_succ_self _) hpos
    _ ≤ (length + 2) * ((length + 2) * (N + 2) * (L + 2) * (L + 2) ^ N) *
          ((N + 2) * (L + 2) ^ 3) :=
        Nat.le_mul_of_pos_right _ (Nat.mul_pos (Nat.succ_pos _) (Nat.pow_pos (Nat.succ_pos _)))
    _ = (length + 2) * (length + 2) * ((N + 2) * (N + 2)) * (L + 2) ^ (N + 2 + 2) := by ring

/-- **The run on an input stops** where there is no further move, and not at its limit. -/
theorem Compiled.moves_run (hp : p.Compiled) (input : Text) :
    (p.run input).moves.length < p.moveLimit input.length ∧
      p.Moves (p.run input).moves.length (.initial p.grammar input) (p.run input).last ∧
      p.move? (p.run input).last = .error (p.run input).stop := by
  obtain ⟨n, hn, d, stop, hd, hstop⟩ := haltsWithin_of_length hp (.initial p.grammar input)
  have hlt : n < p.moveLimit input.length := hn.trans_lt (haltCost_lt_moveLimit input.length)
  obtain ⟨hlast, hend, hcount⟩ := runFrom_of_moves hd hstop hlt []
  rw [List.length_nil, Nat.zero_add] at hcount
  rw [← run] at hlast hend hcount
  rw [hlast, hend, hcount]
  exact ⟨hlt, hd, hstop⟩

theorem Compiled.mem_moves_run (hp : p.Compiled) {input : Text} {n : ℕ} {m : Move}
    (h : p.Moves n (.initial p.grammar input) d) (hm : p.move? d = .ok m) :
    m ∈ (p.run input).moves := by
  obtain ⟨hlt, hrun, hstop⟩ := hp.moves_run input
  exact mem_moves_runFrom h hm ((h.lt_of_stop hm hrun hstop).trans hlt) []

theorem Compiled.parse_eq_of_moves (hp : p.Compiled) {input : Text} {n : ℕ}
    (h : p.Moves n (.initial p.grammar input) c) (hstop : p.move? c = .error .atEndMark)
    (hcursor : c.cursor = input.length) : p.parse input = .ok c.forest := by
  obtain ⟨-, hrun, hend⟩ := hp.moves_run input
  obtain ⟨hlast, hstop', -⟩ := h.eq_of_stop hstop hrun hend
  rw [parse, Run.result, ← hstop', ← hlast]
  exact if_pos hcursor

theorem Moves.acc {n : ℕ} {stop : Stop} (h : p.Moves n c d) (hd : p.move? d = .error stop) :
    Acc (fun c' c => ∃ m, p.move? c = .ok m ∧ c' = c.apply p.grammar m) c := by
  induction h with
  | refl c =>
    refine ⟨c, ?_⟩
    rintro _ ⟨m, hm, rfl⟩
    rw [hd] at hm
    cases hm
  | step hm _ ih =>
    refine ⟨_, ?_⟩
    rintro _ ⟨m', hm', rfl⟩
    rw [hm] at hm'
    cases hm'
    exact ih hd

/-- **Parsing terminates**, for every grammar that compiles. No chain of moves goes on for ever,
wherever it starts: on no lookahead does the table expand nonterminals without end. And on every
input the run makes its moves up to where there is no further one, and never reaches its limit. -/
theorem run_halts {g : Grammar} (h : g.compile = .ok p) :
    (WellFounded fun c' c => ∃ m, p.move? c = .ok m ∧ c' = c.apply p.grammar m) ∧
      ∀ input, (p.run input).stop ≠ .failed .stepLimit ∧
        (p.run input).moves.length < p.moveLimit input.length ∧
        p.Moves (p.run input).moves.length (.initial p.grammar input) (p.run input).last ∧
        p.move? (p.run input).last = .error (p.run input).stop := by
  obtain ⟨s, -, -, hp⟩ := Grammar.compile_eq_ok h
  refine ⟨⟨fun c => ?_⟩, fun input => ⟨fun hlimit => ?_, hp.moves_run input⟩⟩
  · obtain ⟨n, -, d, stop, hd, hstop⟩ := haltsWithin_of_length hp c
    exact hd.acc hstop
  · have hstop := (hp.moves_run input).2.2
    rw [hlimit] at hstop
    exact move?_ne_stepLimit hstop

/-- `A → B`, `B → A C | ε`, `C → C`: every nonterminal is recursive on its left, and no string is
derived through `C`. -/
def leftRecursive : Grammar where
  rules := [.ofText ⟨'A', by decide, by decide⟩ ['B'],
    .ofText ⟨'B', by decide, by decide⟩ ['A', 'C'], .ofText ⟨'B', by decide, by decide⟩ [],
    .ofText ⟨'C', by decide, by decide⟩ ['C']]

/-- A grammar that is recursive on the left compiles, and its parser terminates. -/
theorem run_halts_leftRecursive : ∃ p, leftRecursive.compile = .ok p ∧
    (WellFounded fun c' c => ∃ m, p.move? c = .ok m ∧ c' = c.apply p.grammar m) ∧
      ∀ input, (p.run input).stop ≠ .failed .stepLimit ∧
        (p.run input).moves.length < p.moveLimit input.length ∧
        p.Moves (p.run input).moves.length (.initial p.grammar input) (p.run input).last ∧
        p.move? (p.run input).last = .error (p.run input).stop := by
  obtain ⟨p, hp⟩ := Grammar.exists_compile (g := leftRecursive) (by decide +kernel)
  exact ⟨p, hp, run_halts hp⟩

end PredictiveParsing.Parser
