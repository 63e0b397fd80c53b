import Mathlib
import PredictiveParsing.Parser.Basic
import PredictiveParsing.Proofs.Facts.Saturated
import PredictiveParsing.Proofs.Table

/-!
# Compiled parsers

A compiled parser knows the facts about its grammar, and its table chooses for a nonterminal and a
lookahead the one production that claims it.

* `Parser.Compiled`, **`compile_eq_ok`**: what compiling gives;
* `get?_eq_some_iff`, `exists_get?`: the choices of the table;
* **`notMem_followOf_of_mem_firstOf`**: what can stand first in a nonterminal that can vanish
  cannot follow it.
-/

namespace PredictiveParsing

/-- A parser made of a grammar: its facts and its table are those of the grammar. -/
structure Parser.Compiled (p : Parser) : Prop where
  wellFormed : p.grammar.WellFormed
  facts_eq : p.facts = p.grammar.facts
  table_eq : p.grammar.table p.facts = .ok p.table

theorem Grammar.compile_of_number? {g : Grammar} {n : NumberedGrammar} (hn : g.number? = some n) :
    g.compile = (n.table n.facts).map fun T => ⟨n, n.facts, T⟩ := by
  unfold compile compilation NumberedGrammar.facts
  rw [hn]
  simp only [NumberedGrammar.compilation]
  cases n.table (n.analyze n.noFacts).1 <;> rfl

/-- **Compiling** numbers the grammar, and then finds the facts and the table. -/
theorem Grammar.compile_eq_ok {g : Grammar} {p : Parser} (h : g.compile = .ok p) :
    ∃ s, g.start? = some s ∧ p.grammar = g.number s ∧ p.Compiled := by
  cases hs : g.start? with
  | none =>
    unfold compile compilation number? at h
    rw [hs] at h
    cases h
  | some s =>
    rw [compile_of_number? (number?_eq_some hs)] at h
    cases hT : (g.number s).table (g.number s).facts with
    | error e => rw [hT] at h; cases h
    | ok T =>
      rw [hT] at h
      cases h
      exact ⟨s, rfl, rfl, wellFormed_number (start_mem_nonterminals hs), rfl, hT⟩

theorem Grammar.exists_compile {g : Grammar} (h : g.compile.toOption.isSome = true) :
    ∃ p, g.compile = .ok p := by
  cases hg : g.compile with
  | error e => rw [hg] at h; cases h
  | ok p => exact ⟨p, rfl⟩

namespace Parser.Compiled

variable {p : Parser} {A t i : ℕ} {body : List ℕ}

theorem get?_eq_some_iff (hp : p.Compiled) : p.table.get? A t = some i ↔
    ∃ body, (p.grammar.bodies A)[i]? = some body ∧ t ∈ p.facts.claimed A body :=
  (NumberedGrammar.table_eq_ok hp.table_eq).2 A t i

theorem exists_get? (hp : p.Compiled) (hbody : (A, body) ∈ p.grammar.rules)
    (ht : t ∈ p.facts.claimed A body) :
    ∃ i, p.table.get? A t = some i ∧ p.grammar.body A i = body := by
  obtain ⟨i, hi, rfl⟩ := List.getElem_of_mem (NumberedGrammar.mem_rules.1 hbody)
  refine ⟨i, hp.get?_eq_some_iff.2 ⟨_, List.getElem?_eq_getElem hi, ht⟩, ?_⟩
  rw [NumberedGrammar.body, List.getD_eq_getElem _ _ hi]

theorem mem_rules_of_get? (hp : p.Compiled) (h : p.table.get? A t = some i) :
    (A, p.grammar.body A i) ∈ p.grammar.rules ∧
      t ∈ p.facts.claimed A (p.grammar.body A i) :=
  (NumberedGrammar.body_of_get? hp.table_eq h).imp_left NumberedGrammar.mem_rules.2

theorem eq_of_mem_claimed (hp : p.Compiled) {body' : List ℕ} (h : (A, body) ∈ p.grammar.rules)
    (h' : (A, body') ∈ p.grammar.rules) (ht : t ∈ p.facts.claimed A body)
    (ht' : t ∈ p.facts.claimed A body') : body = body' := by
  obtain ⟨i, hi, rfl⟩ := hp.exists_get? h ht
  obtain ⟨j, hj, rfl⟩ := hp.exists_get? h' ht'
  rw [Option.some.inj (hi.symm.trans hj)]

theorem lt_of_mem_rules (hp : p.Compiled) (h : (A, body) ∈ p.grammar.rules) :
    A < p.grammar.nonterminals.length :=
  hp.wellFormed.lt_of_mem_rules h

/-! ## The facts of a compiled parser -/

theorem isNullable_of_mem_rules (hp : p.Compiled) (h : (A, body) ∈ p.grammar.rules)
    (hbody : p.facts.isNullableSeq body = true) : p.facts.isNullable A = true := by
  rw [hp.facts_eq] at hbody ⊢
  exact (NumberedGrammar.isNullable_iff hp.wellFormed).2 ⟨body, h, hbody⟩

theorem mem_firstOf_of_mem_rules (hp : p.Compiled) (h : (A, body) ∈ p.grammar.rules)
    (ht : t ∈ p.facts.firstSeq body) : t ∈ p.facts.firstOf A := by
  rw [hp.facts_eq] at ht ⊢
  exact (NumberedGrammar.mem_firstOf_iff hp.wellFormed (hp.lt_of_mem_rules h)).2 ⟨body, h, ht⟩

theorem mem_followOf_of_mem_rules (hp : p.Compiled) {B : ℕ} {u v : List ℕ}
    (h : (A, u ++ B :: v) ∈ p.grammar.rules) (hB : p.grammar.isTerminal B = false)
    (ht : t ∈ p.facts.firstSeq v ∨
      (p.facts.isNullableSeq v = true ∧ t ∈ p.facts.followOf A)) : t ∈ p.facts.followOf B := by
  rw [hp.facts_eq] at ht ⊢
  exact (NumberedGrammar.mem_followOf_iff hp.wellFormed).2 ⟨A, u, v, h, hB, ht⟩

theorem isTerminal_eq_false_of_isNullable (hp : p.Compiled) (h : p.facts.isNullable A = true) :
    p.grammar.isTerminal A = false := by
  rw [hp.facts_eq] at h
  exact NumberedGrammar.isTerminal_eq_false_of_isNullable hp.wellFormed h

theorem mem_firstOf_terminal (hp : p.Compiled) (hA : p.grammar.isTerminal A = true) :
    t ∈ p.facts.firstOf A ↔ t = A := by
  rw [hp.facts_eq]
  exact NumberedGrammar.mem_firstOf_terminal hp.wellFormed hA

theorem isNullable_of_within (hp : p.Compiled) {height : ℕ}
    (h : Within (fun A body => (A, body) ∈ p.grammar.rules) height A) :
    p.facts.isNullable A = true := by
  induction height generalizing A with
  | zero => exact h.elim
  | succ height ih =>
    obtain ⟨body, hbody, hp'⟩ := h
    exact hp.isNullable_of_mem_rules hbody (Facts.isNullableSeq_iff.2 fun X hX => ih (hp' X hX))

theorem mem_firstOf_of_within (hp : p.Compiled) {height : ℕ}
    (h : Within (p.grammar.Clause p.facts t .first) height A) : t ∈ p.facts.firstOf A := by
  rw [hp.facts_eq] at h ⊢
  exact NumberedGrammar.mem_firstOf_of_within hp.wellFormed h

/-- **No conflict between first and follow.** What can stand first in a nonterminal that can vanish
cannot follow it: two productions would claim it, or one of them twice. -/
theorem notMem_followOf_of_mem_firstOf (hp : p.Compiled) (hA : p.facts.isNullable A = true)
    (ht : t ∈ p.facts.firstOf A) : t ∉ p.facts.followOf A := by
  intro hfollow
  have hlt := NumberedGrammar.not_isTerminal_iff.1 (hp.isTerminal_eq_false_of_isNullable hA)
  have hA' := hA
  have ht' := ht
  rw [hp.facts_eq, NumberedGrammar.isNullable_iff hp.wellFormed, ← hp.facts_eq] at hA'
  rw [hp.facts_eq, NumberedGrammar.mem_firstOf_iff hp.wellFormed hlt, ← hp.facts_eq] at ht'
  obtain ⟨body, hbody, hnull⟩ := hA'
  obtain ⟨body', hbody', hfirst⟩ := ht'
  obtain rfl := hp.eq_of_mem_claimed hbody hbody'
    (Facts.mem_claimed.2 (Or.inr ⟨hnull, hfollow⟩)) (Facts.mem_claimed.2 (Or.inl hfirst))
  have hnodup := (NumberedGrammar.table_eq_ok hp.table_eq).1 A body
    (NumberedGrammar.mem_rules.1 hbody)
  rw [Facts.claimed, if_pos hnull] at hnodup
  exact List.disjoint_of_nodup_append hnodup hfirst hfollow

end Parser.Compiled

end PredictiveParsing
