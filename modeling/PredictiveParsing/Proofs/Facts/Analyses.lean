import Mathlib
import PredictiveParsing.Parser.Basic
import PredictiveParsing.Proofs.Facts.Saturated

/-!
# How long the analyses take

Each analysis takes at most one pass more than there are nonterminals: whatever it finds has a
derivation that expands no nonterminal inside itself, and every pass finds one more level of it.
Once all three are done, no production adds anything to any of the facts, so that doing them again
takes one pass each.

* `apply_facts`, `complete_facts`: productions and analyses add nothing to the facts about the
  grammar;
* `analyze_facts`: doing all analyses again;
* **`analyze_passes`**: the passes of the analyses, for every grammar with rules.
-/

namespace PredictiveParsing

namespace NumberedGrammar

variable {g : NumberedGrammar} {A : ℕ} {body : List ℕ}

/-- **No production adds anything** to the facts about its grammar. -/
theorem apply_facts (hg : g.WellFormed) (a : Analysis) (hr : (A, body) ∈ g.rules) :
    a.apply g g.facts A body = g.facts := by
  have hsized := sized_facts hg
  refine (Facts.frame_apply g g.facts A body a).eq_of_has (hsized.apply g A body a) hsized
    fun t B => ?_
  rw [Facts.has_apply hsized (hg.lt_of_mem_rules hr)]
  refine or_iff_left_of_imp fun hfires => ?_
  exact (has_facts_iff hg).2 ⟨A, body, hr, hfires⟩

theorem settles_facts (hg : g.WellFormed) (a : Analysis) : g.Settles a g.facts g.facts 1 :=
  .last fun _ hr => apply_facts hg a hr

theorem complete_facts (hg : g.WellFormed) (a : Analysis) : g.complete a g.facts = (g.facts, 1) :=
  complete_of_settles hg (sized_facts hg) (settles_facts hg a) (Nat.succ_pos _)

/-- **The analyses done again** find nothing new, in one pass each. -/
theorem analyze_facts (hg : g.WellFormed) :
    g.analyze g.facts = (g.facts, [(.nullable, 1), (.first, 1), (.follow, 1)]) := by
  simp only [analyze, Analysis.all, List.foldl_cons, List.foldl_nil, complete_facts hg,
    List.nil_append, List.cons_append]

end NumberedGrammar

namespace Grammar

variable {g : Grammar}

theorem stages_compilation {n : NumberedGrammar} (hn : g.number? = some n) :
    ∃ rest, g.compilation.stages =
      (n.analyze n.noFacts).2.map (fun (a, passes) => .saturated a passes) ++ rest := by
  unfold compilation
  rw [hn]
  simp only [NumberedGrammar.compilation]
  cases n.table (n.analyze n.noFacts).1 with
  | ok T => exact ⟨_, rfl⟩
  | error e => exact ⟨[], (List.append_nil _).symm⟩

/-- **The analyses come to rest**, for every grammar with rules. Each of the three goes through the
productions until a whole pass adds nothing, and with `N` nonterminals it takes at most `N + 1`
passes, the last one included; these are the numbers in the log. After that no production adds
anything to any of the facts, and doing the analyses again takes one pass each. -/
theorem analyze_passes (h : g.rules ≠ []) : ∃ n, g.number? = some n ∧
    (∃ F₁ F₂ k₁ k₂ k₃, n.Settles .nullable n.noFacts F₁ k₁ ∧ n.Settles .first F₁ F₂ k₂ ∧
      n.Settles .follow F₂ n.facts k₃ ∧
      (∀ k ∈ [k₁, k₂, k₃], k ≤ n.nonterminals.length + 1) ∧
      n.analyze n.noFacts = (n.facts, [(.nullable, k₁), (.first, k₂), (.follow, k₃)]) ∧
      ∃ rest, g.compilation.stages =
        [.saturated .nullable k₁, .saturated .first k₂, .saturated .follow k₃] ++ rest) ∧
    (∀ a : Analysis, ∀ r ∈ n.rules, a.apply n n.facts r.1 r.2 = n.facts) ∧
    n.analyze n.facts = (n.facts, [(.nullable, 1), (.first, 1), (.follow, 1)]) := by
  obtain ⟨n, hn, hwf⟩ := exists_number? h
  obtain ⟨F₁, F₂, k₁, k₂, k₃, h₁, h₂, h₃, hanalyze⟩ := NumberedGrammar.analyze_spec hwf
  obtain ⟨rest, hstages⟩ := stages_compilation hn
  rw [hanalyze] at hstages
  refine ⟨n, hn, ⟨F₁, F₂, k₁, k₂, k₃, h₁.settles, h₂.settles, h₃.settles, ?_, hanalyze, rest,
    hstages⟩, fun a r hr => NumberedGrammar.apply_facts hwf a hr,
    NumberedGrammar.analyze_facts hwf⟩
  simp only [List.forall_mem_cons, List.not_mem_nil, false_imp_iff, implies_true, and_true]
  exact ⟨h₁.passes_le, h₂.passes_le, h₃.passes_le⟩

/-- `X → Y`, `Y → Z`, `Z → a | ε`: each rule comes before the one on which it depends. -/
def backward : Grammar where
  rules := [.ofText ⟨'X', by decide, by decide⟩ ['Y'],
    .ofText ⟨'Y', by decide, by decide⟩ ['Z'], .ofText ⟨'Z', by decide, by decide⟩ ['a'],
    .ofText ⟨'Z', by decide, by decide⟩ []]

/-- In both of the first two analyses every pass reaches one nonterminal more, so that with the
augmented start there are as many passes as nonterminals. -/
theorem analyze_passes_backward : backward.rules ≠ [] ∧ ∃ n F₁ F₂, backward.number? = some n ∧
    n.nonterminals.length = 4 ∧ n.Settles .nullable n.noFacts F₁ 4 ∧ n.Settles .first F₁ F₂ 4 ∧
    n.Settles .follow F₂ n.facts 3 ∧
    n.analyze n.facts = (n.facts, [(.nullable, 1), (.first, 1), (.follow, 1)]) := by
  have hrules : backward.rules ≠ [] := by decide
  obtain ⟨n, hn, ⟨F₁, F₂, k₁, k₂, k₃, h₁, h₂, h₃, -, hanalyze, -⟩, -, hagain⟩ :=
    analyze_passes hrules
  obtain rfl : backward.number 'X' = n := Option.some.inj hn
  have hlog : ((backward.number 'X').analyze (backward.number 'X').noFacts).2 =
      [(.nullable, 4), (.first, 4), (.follow, 3)] := by
    decide +kernel
  rw [hanalyze] at hlog
  obtain ⟨rfl, rfl, rfl⟩ : k₁ = 4 ∧ k₂ = 4 ∧ k₃ = 3 := by simpa using hlog
  exact ⟨hrules, _, F₁, F₂, hn, by decide, h₁, h₂, h₃, hagain⟩

end Grammar

end PredictiveParsing
