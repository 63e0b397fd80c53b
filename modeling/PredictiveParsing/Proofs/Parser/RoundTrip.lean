import Mathlib
import PredictiveParsing.Proofs.Parser.Completeness

/-!
# The leaves of a parsed input

The frontier of a successful parse begins with the input. It is the input, and the input is a string
of the grammar, unless `$` stands in a production: a run stops at the first `$` on top of its stack,
and what is pending then is left in the tree.

* `frontier_of_parse`: the frontier is the input, or the input and then `$`;
* `exists_derives_iff_of_parse`: when the input is a string of the grammar;
* **`round_trip_iff`**: both hold exactly if no leaf is labelled `$`;
* `not_round_trip`: a grammar in which `$` stands in a production.
-/

namespace PredictiveParsing.Parser

variable {p : Parser} {g : Grammar} {s : Char} {input : Text} {f : Forest}

/-- **The frontier of a parse** is the input, or the input and then what was pending at a `$`. -/
theorem frontier_of_parse (hp : p.Compiled) (hg : p.grammar = g.number s) (hs : g.start? = some s)
    (hf : p.parse input = .ok f) :
    (∀ a ∈ input, a ∈ g.terminals) ∧
      ((f.frontier = input ∧ f.IsTree ∧ f.IsParse g input) ∨
        ∃ v, f.frontier = input ++ endMark :: v) := by
  obtain ⟨c, done, ps, hvalid, hsplit, rfl, hinput, hps⟩ := exists_split_of_parse hp hg hs hf
  refine ⟨fun a ha => ?_, ?_⟩
  · rw [← hinput] at ha
    obtain ⟨i, hi, rfl⟩ := List.mem_map.1 ha
    exact hsplit.consumed i hi
  · rcases hps with rfl | ⟨e, ps, rfl, hlabel⟩
    · have hparse := hvalid.isParse hs hsplit hinput
      exact Or.inl ⟨hparse.frontier_eq, hvalid.isTree, hparse⟩
    · refine Or.inr ⟨ps.map fun e => c.forest.label e.node, ?_⟩
      rw [Forest.frontier_eq, hsplit.leaves_eq, List.map_append, hinput, List.map_cons,
        List.map_cons, hlabel, List.map_map]
      rfl

theorem endMark_notMem_of_terminals (h : ∀ a ∈ input, a ∈ g.terminals) : endMark ∉ input :=
  fun hmem => (Grammar.mem_terminals.1 (h endMark hmem)).2.1 rfl

theorem frontier_eq_iff_of_parse (hp : p.Compiled) (hg : p.grammar = g.number s)
    (hs : g.start? = some s) (hf : p.parse input = .ok f) :
    f.frontier = input ↔ endMark ∉ f.frontier := by
  obtain ⟨hterminals, ⟨hfrontier, -, -⟩ | ⟨v, hfrontier⟩⟩ := frontier_of_parse hp hg hs hf
  · rw [hfrontier]
    exact iff_of_true rfl (endMark_notMem_of_terminals hterminals)
  · rw [hfrontier]
    refine iff_of_false (fun h => ?_) fun h => h (List.mem_append_right _ List.mem_cons_self)
    have hlength := congrArg List.length h
    rw [List.length_append, List.length_cons] at hlength
    omega

/-- **An input that is parsed is a string of the grammar** exactly if no leaf is labelled `$`. -/
theorem exists_derives_iff_of_parse (hp : p.Compiled) (hg : p.grammar = g.number s)
    (hs : g.start? = some s) (hf : p.parse input = .ok f) :
    g.Derives [s] input ↔ endMark ∉ f.frontier := by
  obtain ⟨hterminals, hfrontier⟩ := frontier_of_parse hp hg hs hf
  have hend := endMark_notMem_of_terminals hterminals
  constructor
  · intro hderives
    have hmem := Grammar.start_mem_nonterminals hs
    obtain ⟨t, hlabel, rfl, ht⟩ := Grammar.exists_tree hderives
      (Grammar.ne_epsilon_of_mem_nonterminals hmem)
      fun a ha => (Grammar.mem_terminals.1 (hterminals a ha)).2.2
    obtain ⟨f', hf', -, hparse⟩ := exists_parse_of_isDerivation hp hg hs ht hlabel hend
    obtain rfl : f = f' := Except.ok.inj (hf.symm.trans hf')
    rw [hparse.frontier_eq]
    exact hend
  · intro hnotMem
    rcases hfrontier with ⟨-, htree, hparse⟩ | ⟨v, hfrontier⟩
    · obtain ⟨hder, hstart, hfrontier⟩ := hparse.isDerivation_tree htree
      obtain rfl : s = f.tree.label := Option.some.inj (hs.symm.trans hstart)
      rw [← hfrontier]
      exact hder.derives
    · rw [hfrontier] at hnotMem
      exact absurd (List.mem_append_right _ List.mem_cons_self) hnotMem

/-- **Round trip.** The frontier of a successful parse is the input, and the input is derived from
the start symbol, exactly if no leaf is labelled `$`. Otherwise neither of the two holds, and the
frontier is the input, `$`, and what was still pending. -/
theorem round_trip_iff (h : g.compile = .ok p) (hf : p.parse input = .ok f) :
    ((∃ s, g.start? = some s ∧ g.Derives [s] input) ↔ endMark ∉ f.frontier) ∧
      (f.frontier = input ↔ endMark ∉ f.frontier) ∧
      (endMark ∈ f.frontier → ∃ v, f.frontier = input ++ endMark :: v) := by
  obtain ⟨s, hs, hg, hp⟩ := Grammar.compile_eq_ok h
  refine ⟨?_, frontier_eq_iff_of_parse hp hg hs hf, fun hmem => ?_⟩
  · rw [← exists_derives_iff_of_parse hp hg hs hf]
    constructor
    · rintro ⟨s', hs', hderives⟩
      obtain rfl : s = s' := Option.some.inj (hs.symm.trans hs')
      exact hderives
    · exact fun hderives => ⟨s, hs, hderives⟩
  · obtain ⟨hterminals, ⟨hfrontier, -, -⟩ | hfrontier⟩ := frontier_of_parse hp hg hs hf
    · rw [hfrontier] at hmem
      exact absurd hmem (endMark_notMem_of_terminals hterminals)
    · exact hfrontier

theorem round_trip_iff_nested : ∃ p f, Grammar.nested.compile = .ok p ∧
    p.parse ['a', 'b'] = .ok f ∧
    ((∃ s, Grammar.nested.start? = some s ∧ Grammar.nested.Derives [s] ['a', 'b']) ↔
      endMark ∉ f.frontier) ∧
    (f.frontier = ['a', 'b'] ↔ endMark ∉ f.frontier) ∧
    (endMark ∈ f.frontier → ∃ v, f.frontier = ['a', 'b'] ++ endMark :: v) := by
  obtain ⟨p, f, hp, hf⟩ := exists_parse_nested
  exact ⟨p, f, hp, hf, round_trip_iff hp hf⟩

/-- `S → a $ b`. -/
def interrupted : Grammar where
  rules := [.ofText .letterS ['a', '$', 'b']]

theorem frontier_interrupted : (interrupted.compile.bind fun p =>
    (p.parse ['a']).map Forest.frontier).toOption = some ['a', '$', 'b'] := by
  decide +kernel

/-- **The round trip can fail.** For `S → a $ b` the input `a` is parsed although it is no string of
the grammar, and the frontier of its tree is `a$b`. -/
theorem not_round_trip : ∃ p f, interrupted.compile = .ok p ∧ p.parse ['a'] = .ok f ∧
    f.frontier = ['a', '$', 'b'] ∧ f.frontier ≠ ['a'] ∧
    ¬ ∃ s, interrupted.start? = some s ∧ interrupted.Derives [s] ['a'] := by
  have hparse : (interrupted.compile.bind fun p => p.parse ['a']).toOption.isSome = true := by
    decide +kernel
  obtain ⟨p, f, hp, hf⟩ := exists_parse hparse
  have hfrontier := frontier_interrupted
  rw [hp] at hfrontier
  change ((p.parse ['a']).map Forest.frontier).toOption = some ['a', '$', 'b'] at hfrontier
  rw [hf] at hfrontier
  replace hfrontier : f.frontier = ['a', '$', 'b'] := Option.some.inj hfrontier
  refine ⟨p, f, hp, hf, hfrontier, by rw [hfrontier]; decide, ?_⟩
  rintro ⟨s, hs, hderives⟩
  obtain ⟨s', hs', hg, hcompiled⟩ := Grammar.compile_eq_ok hp
  obtain rfl : s' = s := Option.some.inj (hs'.symm.trans hs)
  have hnotMem := (exists_derives_iff_of_parse hcompiled hg hs hf).1 hderives
  rw [hfrontier] at hnotMem
  exact hnotMem (by decide)

end PredictiveParsing.Parser
