import Mathlib
import PredictiveParsing.Proofs.DerivationTrees
import PredictiveParsing.Proofs.Parser.Compiled

/-!
# What a parser knows about derivation trees

The facts of a compiled parser cover every derivation tree: a tree that derives nothing has a root
that can vanish, and a tree that derives something has a root in which its first symbol can stand
first. So the production at the root claims the next symbol of the input.

* `Parser.Covers`: what the facts say about one tree; `covers_all`: about trees side by side;
* **`covers_of_isDerivation`**: the facts cover every derivation tree;
* `nextSymbol`: the first symbol of what trees derive, or the end mark;
* `Parser.Follow`: every tree is followed by a symbol that can follow its root;
  **`follow_append`**: expanding the first tree preserves it; `follow_start`;
* **`mem_claimed`**: the production at the root claims the next symbol.
-/

namespace PredictiveParsing

open PredictiveParsing.Tree

/-- The first symbol of what some trees derive. After it comes the end mark. -/
def nextSymbol (ts : List (Tree Char)) : Char := (ts.flatMap frontier).headD endMark

namespace Parser

variable {p : Parser} {g : Grammar} {s A : Char} {t : Tree Char} {ts cs : List (Tree Char)}

/-- The numbers of the roots of some trees. -/
def roots (g : Grammar) (s : Char) (ts : List (Tree Char)) : List ℕ :=
  ts.map fun t => (g.number s).code t.label

theorem roots_eq (g : Grammar) (s : Char) (ts : List (Tree Char)) :
    roots g s ts = (ts.map label).map (g.number s).code := by
  rw [roots, List.map_map]
  rfl

theorem roots_append (g : Grammar) (s : Char) (cs ts : List (Tree Char)) :
    roots g s (cs ++ ts) = roots g s cs ++ roots g s ts := List.map_append

/-- The facts about the root of a tree agree with what the tree derives. -/
structure Covers (p : Parser) (g : Grammar) (s : Char) (t : Tree Char) : Prop where
  occurs : ∀ a ∈ t.frontier, g.Occurs a
  vanish : t.frontier = [] → p.facts.isNullable ((g.number s).code t.label) = true
  first : ∀ a w, t.frontier = a :: w →
    (g.number s).code a ∈ p.facts.firstOf ((g.number s).code t.label)

theorem occurs_all (h : ∀ t ∈ ts, p.Covers g s t) : ∀ a ∈ ts.flatMap frontier, g.Occurs a := by
  intro a ha
  obtain ⟨t, ht, ha⟩ := List.mem_flatMap.1 ha
  exact (h t ht).occurs a ha

theorem covers_all (h : ∀ t ∈ ts, p.Covers g s t) :
    (ts.flatMap frontier = [] → p.facts.isNullableSeq (roots g s ts) = true) ∧
      ∀ a w, ts.flatMap frontier = a :: w →
        (g.number s).code a ∈ p.facts.firstSeq (roots g s ts) := by
  induction ts with
  | nil => exact ⟨fun _ => rfl, fun a w h => by cases h⟩
  | cons t ts ih =>
    obtain ⟨hvanish, hfirst⟩ := ih fun u hu => h u (List.mem_cons_of_mem _ hu)
    have ht := h t List.mem_cons_self
    refine ⟨fun hnil => ?_, fun a w hcons => ?_⟩
    · obtain ⟨hnil, hnils⟩ := List.append_eq_nil_iff.1 hnil
      exact Facts.isNullableSeq_cons.2 ⟨ht.vanish hnil, hvanish hnils⟩
    · rw [List.flatMap_cons] at hcons
      refine Facts.mem_firstSeq_cons.2 ?_
      cases hnil : t.frontier with
      | nil =>
        rw [hnil, List.nil_append] at hcons
        exact Or.inr ⟨ht.vanish hnil, hfirst a w hcons⟩
      | cons b v =>
        rw [hnil] at hcons
        obtain ⟨rfl, -⟩ := List.cons.inj hcons
        exact Or.inl (ht.first b v hnil)

theorem production_mem_rules (hg : p.grammar = g.number s) (hs : s ∈ g.nonterminals)
    (h : ts.map label ∈ g.productions A) :
    ((g.number s).code A, roots g s ts) ∈ p.grammar.rules := by
  rw [hg, roots_eq]
  exact Grammar.mem_rules_of_mem_productions hs h

theorem covers_terminal (hp : p.Compiled) (hg : p.grammar = g.number s) (hs : s ∈ g.nonterminals)
    {a : Char} (ha : a ∉ g.nonterminals) (hε : a ≠ epsilon) (hoccurs : g.Occurs a) :
    p.Covers g s (node a []) := by
  have hterm : p.grammar.isTerminal ((g.number s).code a) = true := by
    rw [hg]
    exact (Grammar.isTerminal_code hs (hoccurs.mem_names hs)).2 ha
  have hfrontier := frontier_leaf hε
  refine ⟨fun b hb => ?_, fun hnil => ?_, fun b w hcons => ?_⟩
  · rw [hfrontier, List.mem_singleton] at hb
    exact hb ▸ hoccurs
  · rw [hfrontier] at hnil
    cases hnil
  · rw [hfrontier] at hcons
    obtain ⟨rfl, -⟩ := List.cons.inj hcons
    exact (hp.mem_firstOf_terminal hterm).2 rfl

theorem covers_ofProduction (hp : p.Compiled) (hg : p.grammar = g.number s)
    (hs : s ∈ g.nonterminals) (hright : cs.map label ∈ g.productions A)
    (hcs : ∀ c ∈ cs, p.Covers g s c) : p.Covers g s (ofProduction A cs) := by
  have hrule := production_mem_rules hg hs hright
  have hfrontier := frontier_ofProduction A cs
  obtain ⟨hvanish, hfirst⟩ := covers_all hcs
  refine ⟨fun b hb => ?_, fun hnil => ?_, fun b w hcons => ?_⟩
  · rw [hfrontier] at hb
    exact occurs_all hcs b hb
  · rw [hfrontier] at hnil
    exact hp.isNullable_of_mem_rules hrule (hvanish hnil)
  · rw [hfrontier] at hcons
    exact hp.mem_firstOf_of_mem_rules hrule (hfirst b w hcons)

/-- **The facts cover every derivation tree.** -/
theorem covers_of_isDerivation (hp : p.Compiled) (hg : p.grammar = g.number s)
    (hs : s ∈ g.nonterminals) (ht : t.IsDerivation g) (hoccurs : g.Occurs t.label) :
    p.Covers g s t := by
  induction ht with
  | terminal a ha hε => exact covers_terminal hp hg hs ha hε hoccurs
  | vanish A hA =>
    have hnil : ([] : List (Tree Char)).map label ∈ g.productions A := hA
    exact covers_ofProduction hp hg hs hnil (by simp)
  | expand A t ts hright _ ih =>
    exact covers_ofProduction hp hg hs hright fun u hu =>
      ih u hu (Or.inr ⟨A, _, hright, List.mem_map_of_mem hu⟩)

/-! ## The next symbol -/

/-- Every tree with a nonterminal at its root is followed by a symbol that can follow it. -/
def Follow (p : Parser) (g : Grammar) (s : Char) : List (Tree Char) → Prop
  | [] => True
  | t :: ts =>
    (t.label ∈ g.nonterminals →
      (g.number s).code (nextSymbol ts) ∈ p.facts.followOf ((g.number s).code t.label)) ∧
    Follow p g s ts

/-- **The production at the root of a tree claims the next symbol**: it is the first symbol of what
the production derives, or the production vanishes and it is the symbol that follows. -/
theorem mem_claimed (hcs : ∀ c ∈ cs, p.Covers g s c)
    (hA : (g.number s).code (nextSymbol ts) ∈ p.facts.followOf ((g.number s).code A)) :
    (g.number s).code (nextSymbol (cs ++ ts)) ∈
      p.facts.claimed ((g.number s).code A) (roots g s cs) := by
  obtain ⟨hvanish, hfirst⟩ := covers_all hcs
  rw [Facts.mem_claimed]
  cases hfrontier : cs.flatMap frontier with
  | nil =>
    refine Or.inr ⟨hvanish hfrontier, ?_⟩
    rw [nextSymbol, List.flatMap_append, hfrontier]
    exact hA
  | cons a w =>
    refine Or.inl ?_
    rw [nextSymbol, List.flatMap_append, hfrontier]
    exact hfirst a w hfrontier

/-- **Putting the children of the first tree in its place** preserves what follows each tree. -/
theorem follow_append (hp : p.Compiled) (hg : p.grammar = g.number s) (hs : s ∈ g.nonterminals)
    {u : List ℕ} (hrule : ((g.number s).code A, u ++ roots g s cs) ∈ p.grammar.rules)
    (hcs : ∀ c ∈ cs, p.Covers g s c ∧ g.Occurs c.label)
    (hA : (g.number s).code (nextSymbol ts) ∈ p.facts.followOf ((g.number s).code A))
    (hts : p.Follow g s ts) : p.Follow g s (cs ++ ts) := by
  induction cs generalizing u with
  | nil => exact hts
  | cons c cs ih =>
    have hrest : ∀ d ∈ cs, p.Covers g s d ∧ g.Occurs d.label := fun d hd =>
      hcs d (List.mem_cons_of_mem _ hd)
    refine ⟨fun hc => ?_, ih (u := u ++ [(g.number s).code c.label]) ?_ hrest⟩
    · have hterm : p.grammar.isTerminal ((g.number s).code c.label) = false := by
        rw [hg, ← Bool.not_eq_true, Grammar.isTerminal_code hs
          ((hcs c List.mem_cons_self).2.mem_names hs), not_not]
        exact hc
      have hclaimed := mem_claimed (fun d hd => (hrest d hd).1) hA
      exact hp.mem_followOf_of_mem_rules hrule hterm (Facts.mem_claimed.1 hclaimed)
    · rw [List.append_assoc]
      exact hrule

theorem follow_start (hp : p.Compiled) (hg : p.grammar = g.number s) (hs : g.start? = some s)
    (ht : t.label = s) : p.Follow g s [t] := by
  have hmem := Grammar.start_mem_nonterminals hs
  refine ⟨fun _ => ?_, trivial⟩
  have hrule : (p.grammar.augmentedStart, [] ++ p.grammar.start :: [p.grammar.endMark]) ∈
      p.grammar.rules := by
    rw [hg]
    exact Grammar.augmented_mem_rules
  have hstart : (g.number s).code s = p.grammar.start := Grammar.code_start hs
  have hend : (g.number s).code endMark = p.grammar.endMark := by
    rw [hg]
    exact Grammar.code_endMark hmem
  have hterm : p.grammar.isTerminal p.grammar.start = false := by
    rw [hg, ← Bool.not_eq_true, NumberedGrammar.start, ← Grammar.code_start hs,
      Grammar.isTerminal_code hmem (Grammar.Occurs.mem_names hmem (Or.inl hmem)), not_not]
    exact hmem
  have hlast : p.grammar.isTerminal p.grammar.endMark = true :=
    NumberedGrammar.isTerminal_iff.2 hp.wellFormed.le_endMark
  rw [ht, hstart, nextSymbol, List.flatMap_nil, List.headD_nil, hend]
  refine hp.mem_followOf_of_mem_rules hrule hterm (Or.inl ?_)
  exact Facts.mem_firstSeq_cons.2 (Or.inl ((hp.mem_firstOf_terminal hlast).2 rfl))

end Parser

end PredictiveParsing
