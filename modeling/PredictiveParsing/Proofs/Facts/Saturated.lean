import Mathlib
import PredictiveParsing.Proofs.Clauses
import PredictiveParsing.Proofs.Facts.Passes
import PredictiveParsing.Proofs.Numbering

/-!
# The analyses find exactly what follows

After `k` passes an analysis has found everything that has a derivation of height `k`, and nothing
that has no derivation. So it is complete after as many passes as there are nonterminals, and one
more pass changes nothing.

* `NumberedGrammar.Clause`: the clauses of all productions;
* `Approximates`: the facts after some passes; `approximates_pass`: one pass more;
* `Analyzed`, `complete_spec`: one analysis; **`analyze_spec`**, **`has_facts`**: all of them;
* **`isNullable_iff`**, **`mem_firstOf_iff`**, **`mem_followOf_iff`**: the equations that the facts
  solve.
-/

namespace PredictiveParsing

namespace NumberedGrammar

open Facts

variable {g : NumberedGrammar} {a : Analysis} {F F₀ : Facts} {t A B k : ℕ}

/-- The clauses that an analysis reads from the productions of a grammar. -/
def Clause (g : NumberedGrammar) (F : Facts) (t : ℕ) (a : Analysis) (B : ℕ)
    (premises : List ℕ) : Prop :=
  ∃ A body, (A, body) ∈ g.rules ∧ F.ClauseOf g t A body a B premises

theorem Clause.lt (hg : g.WellFormed) {premises : List ℕ} (h : g.Clause F t a B premises) :
    B < g.nonterminals.length := by
  obtain ⟨A, body, hr, hc⟩ := h
  cases a with
  | nullable => exact hc.1 ▸ hg.lt_of_mem_rules hr
  | first => exact hc.1 ▸ hg.lt_of_mem_rules hr
  | follow => obtain ⟨_, _, _, hB, _⟩ := hc; exact not_isTerminal_iff.1 hB

theorem Clause.congr (hn : a ≠ .nullable → F.nullable = F₀.nullable)
    (hf : a = .follow → F.first = F₀.first) {premises : List ℕ} :
    g.Clause F t a B premises ↔ g.Clause F₀ t a B premises :=
  exists₂_congr fun _ _ => and_congr_right fun _ => clauseOf_congr hn hf

/-! ## Passes -/

/-- The facts after `k` passes of an analysis from `F₀`: what has a derivation of height `k` has
been found, and what has been found has a derivation. -/
structure Approximates (g : NumberedGrammar) (a : Analysis) (F₀ F : Facts) (k : ℕ) : Prop where
  sized : F.Sized g.nonterminals.length
  frame : Frame a F F₀
  lower : ∀ t B, Within (g.Clause F₀ t a) k B → F.Has t a B
  upper : ∀ t B, F.Has t a B → Within (g.Clause F₀ t a) g.nonterminals.length B

theorem Approximates.apply (hg : g.WellFormed) (h : Approximates g a F₀ F k) {body : List ℕ}
    (hr : (A, body) ∈ g.rules) : Approximates g a F₀ (a.apply g F A body) k where
  sized := h.sized.apply g A body a
  frame := (frame_apply g F A body a).trans h.frame
  lower t B hB := (has_apply h.sized (hg.lt_of_mem_rules hr)).2 (Or.inl (h.lower t B hB))
  upper t B hB := by
    rcases (has_apply h.sized (hg.lt_of_mem_rules hr)).1 hB with hB | ⟨premises, hc, hp⟩
    · exact h.upper t B hB
    · refine Within.of_clause (fun _ _ => Clause.lt hg) ?_ fun X hX => h.upper t X (hp X hX)
      exact ⟨A, body, hr, h.frame.clauseOf_iff.1 hc⟩

theorem Approximates.foldl (hg : g.WellFormed) (h : Approximates g a F₀ F k)
    {rules : List (ℕ × List ℕ)} (hrules : ∀ r ∈ rules, r ∈ g.rules) :
    Approximates g a F₀ (rules.foldl (fun F r => a.apply g F r.1 r.2) F) k ∧
      ∀ t B, (F.Has t a B ∨ ∃ r ∈ rules, ∃ premises, F₀.ClauseOf g t r.1 r.2 a B premises ∧
          ∀ X ∈ premises, F.Has t a X) →
        (rules.foldl (fun F r => a.apply g F r.1 r.2) F).Has t a B := by
  induction rules generalizing F with
  | nil => exact ⟨h, fun t B hB => hB.resolve_right (by simp)⟩
  | cons r rules ih =>
    have hr := hrules r List.mem_cons_self
    have hiff : ∀ t B, (a.apply g F r.1 r.2).Has t a B ↔
        F.Has t a B ∨ F.Fires g t r.1 r.2 a B :=
      fun t B => has_apply h.sized (hg.lt_of_mem_rules hr)
    obtain ⟨happ, hhas⟩ := ih (h.apply hg hr) fun r' hr' => hrules r' (List.mem_cons_of_mem _ hr')
    refine ⟨happ, fun t B hB => hhas t B ?_⟩
    rcases hB with hB | ⟨r', hr', premises, hc, hp⟩
    · exact Or.inl ((hiff t B).2 (Or.inl hB))
    · rcases List.mem_cons.1 hr' with rfl | hr'
      · exact Or.inl ((hiff t B).2 (Or.inr ⟨premises, h.frame.clauseOf_iff.2 hc, hp⟩))
      · exact Or.inr ⟨r', hr', premises, hc, fun X hX => (hiff t X).2 (Or.inl (hp X hX))⟩

/-- **One pass more finds one more level.** -/
theorem approximates_pass (hg : g.WellFormed) (h : Approximates g a F₀ F k) :
    Approximates g a F₀ (g.pass a F) (k + 1) := by
  obtain ⟨happ, hhas⟩ := h.foldl hg fun r (hr : r ∈ g.rules) => hr
  refine ⟨happ.sized, happ.frame, fun t B hB => hhas t B ?_, happ.upper⟩
  obtain ⟨premises, ⟨A, body, hr, hc⟩, hp⟩ := hB
  exact Or.inr ⟨(A, body), hr, premises, hc, fun X hX => h.lower t X (hp X hX)⟩

theorem approximates_iterate (hg : g.WellFormed) (hF₀ : F₀.Sized g.nonterminals.length)
    (hblank : ∀ t B, ¬ F₀.Has t a B) (k : ℕ) : Approximates g a F₀ ((g.pass a)^[k] F₀) k := by
  induction k with
  | zero =>
    exact ⟨hF₀, .refl a F₀, fun _ _ h => h.elim, fun t B h => absurd h (hblank t B)⟩
  | succ k ih =>
    rw [Function.iterate_succ_apply']
    exact approximates_pass hg ih

theorem Approximates.has_iff (h : Approximates g a F₀ F k)
    (hk : g.nonterminals.length ≤ k) :
    F.Has t a B ↔ Within (g.Clause F₀ t a) g.nonterminals.length B :=
  ⟨h.upper t B, fun hB => h.lower t B (hB.mono hk)⟩

theorem iterate_pass_eq (hg : g.WellFormed) (hF₀ : F₀.Sized g.nonterminals.length)
    (hblank : ∀ t B, ¬ F₀.Has t a B) : (g.pass a)^[g.nonterminals.length + 1] F₀ =
      (g.pass a)^[g.nonterminals.length] F₀ := by
  -- Whatever follows does so within as many levels as there are nonterminals.
  have h := approximates_iterate hg hF₀ hblank (g.nonterminals.length + 1)
  have h' := approximates_iterate hg hF₀ hblank g.nonterminals.length
  have hsym : Frame a F₀ ((g.pass a)^[g.nonterminals.length] F₀) :=
    ⟨fun ha => (h'.frame.nullable ha).symm, fun ha => (h'.frame.first ha).symm,
      fun ha => (h'.frame.follow ha).symm⟩
  refine (h.frame.trans hsym).eq_of_has h.sized h'.sized fun t B => ?_
  rw [h.has_iff (Nat.le_succ _), h'.has_iff le_rfl]

/-- What an analysis makes of the facts `F₀`: it comes to rest within one pass more than there are
nonterminals, and has then found what follows. -/
structure Analyzed (g : NumberedGrammar) (a : Analysis) (F₀ F : Facts) (passes : ℕ) : Prop where
  approximates : Approximates g a F₀ F g.nonterminals.length
  settles : g.Settles a F₀ F passes
  passes_le : passes ≤ g.nonterminals.length + 1

theorem complete_spec (hg : g.WellFormed) (hF₀ : F₀.Sized g.nonterminals.length)
    (hblank : ∀ t B, ¬ F₀.Has t a B) :
    Analyzed g a F₀ (g.complete a F₀).1 (g.complete a F₀).2 := by
  obtain ⟨k, hk, hsettles⟩ := exists_settles hg hF₀ (iterate_pass_eq hg hF₀ hblank)
  have hlimit : g.nonterminals.length + 1 ≤ g.passLimit :=
    Nat.succ_le_succ (Nat.le_mul_of_pos_right _ (Nat.succ_pos _))
  rw [complete_of_settles hg hF₀ hsettles (hk.trans hlimit)]
  exact ⟨approximates_iterate hg hF₀ hblank _, hsettles, hk⟩

/-! ## All analyses -/

/-- **The three analyses**, one after the other. -/
theorem analyze_spec (hg : g.WellFormed) : ∃ F₁ F₂ k₁ k₂ k₃,
    Analyzed g .nullable g.noFacts F₁ k₁ ∧ Analyzed g .first F₁ F₂ k₂ ∧
      Analyzed g .follow F₂ g.facts k₃ ∧
      g.analyze g.noFacts = (g.facts, [(.nullable, k₁), (.first, k₂), (.follow, k₃)]) := by
  have h₁ := complete_spec hg (sized_blank _) fun t B => not_has_blank (a := .nullable)
  have hframe₁ := h₁.approximates.frame
  have h₂ := complete_spec hg h₁.approximates.sized fun t B (h : Facts.Has _ t .first B) =>
    not_has_blank ((hframe₁.has_iff (by decide)).1 h)
  have hframe₂ := h₂.approximates.frame
  have h₃ := complete_spec hg h₂.approximates.sized fun t B (h : Facts.Has _ t .follow B) =>
    not_has_blank ((hframe₁.has_iff (by decide)).1 ((hframe₂.has_iff (by decide)).1 h))
  exact ⟨_, _, _, _, _, h₁, h₂, h₃, rfl⟩

theorem sized_facts (hg : g.WellFormed) : g.facts.Sized g.nonterminals.length := by
  obtain ⟨_, _, _, _, _, -, -, h, -⟩ := analyze_spec hg
  exact h.approximates.sized

/-- **The facts about a grammar** are what follows from the clauses of its productions. -/
theorem has_facts (hg : g.WellFormed) :
    g.facts.Has t a B ↔ Within (g.Clause g.facts t a) g.nonterminals.length B := by
  obtain ⟨F₁, F₂, _, _, _, ⟨h₁, -, -⟩, ⟨h₂, -, -⟩, ⟨h₃, -, -⟩, -⟩ := analyze_spec hg
  cases a with
  | nullable =>
    rw [h₃.frame.has_iff (by decide), h₂.frame.has_iff (by decide), h₁.has_iff le_rfl]
    exact Within.congr fun _ _ => Clause.congr (fun h => absurd rfl h) fun h => by cases h
  | first =>
    have hn : F₁.nullable = g.facts.nullable :=
      (h₂.frame.nullable (by decide)).symm.trans (h₃.frame.nullable (by decide)).symm
    rw [h₃.frame.has_iff (by decide), h₂.has_iff le_rfl]
    exact Within.congr fun _ _ => Clause.congr (fun _ => hn) fun h => by cases h
  | follow =>
    rw [h₃.has_iff le_rfl]
    exact Within.congr fun _ _ => Clause.congr (fun _ => (h₃.frame.nullable (by decide)).symm)
      fun _ => (h₃.frame.first (by decide)).symm

/-! ## The equations of the three analyses -/

theorem has_facts_iff (hg : g.WellFormed) : g.facts.Has t a B ↔
    ∃ A body, (A, body) ∈ g.rules ∧ g.facts.Fires g t A body a B := by
  rw [has_facts hg, within_iff_exists fun _ _ => Clause.lt hg]
  constructor
  · rintro ⟨premises, ⟨A, body, hr, hc⟩, hp⟩
    exact ⟨A, body, hr, premises, hc, fun X hX => (has_facts hg).2 (hp X hX)⟩
  · rintro ⟨A, body, hr, premises, hc, hp⟩
    exact ⟨premises, ⟨A, body, hr, hc⟩, fun X hX => (has_facts hg).1 (hp X hX)⟩

/-- **A nonterminal can vanish** iff one of its productions can. -/
theorem isNullable_iff (hg : g.WellFormed) : g.facts.isNullable A = true ↔
    ∃ body, (A, body) ∈ g.rules ∧ g.facts.isNullableSeq body = true := by
  have h := has_facts_iff hg (t := 0) (a := .nullable) (B := A)
  simp only [fires_nullable] at h
  refine h.trans ⟨?_, ?_⟩
  · rintro ⟨A, body, hr, rfl, hb⟩
    exact ⟨body, hr, hb⟩
  · rintro ⟨body, hr, hb⟩
    exact ⟨A, body, hr, rfl, hb⟩

/-- **First in a nonterminal** stands what is first in one of its productions. -/
theorem mem_firstOf_iff (hg : g.WellFormed) (hA : A < g.nonterminals.length) :
    t ∈ g.facts.firstOf A ↔ ∃ body, (A, body) ∈ g.rules ∧ t ∈ g.facts.firstSeq body := by
  have h := has_facts_iff hg (t := t) (a := .first) (B := A)
  simp only [fires_first (sized_facts hg), Has, (sized_facts hg).first, hA, true_and] at h
  refine h.trans ⟨?_, ?_⟩
  · rintro ⟨A, body, hr, rfl, hb⟩
    exact ⟨body, hr, hb⟩
  · rintro ⟨body, hr, hb⟩
    exact ⟨A, body, hr, rfl, hb⟩

/-- **After a nonterminal** comes what is first after it in a production, or what comes after the
left side if all after it can vanish. -/
theorem mem_followOf_iff (hg : g.WellFormed) : t ∈ g.facts.followOf B ↔
    ∃ A u v, (A, u ++ B :: v) ∈ g.rules ∧ g.isTerminal B = false ∧
      (t ∈ g.facts.firstSeq v ∨
        (g.facts.isNullableSeq v = true ∧ t ∈ g.facts.followOf A)) := by
  have h := has_facts_iff hg (t := t) (a := .follow) (B := B)
  simp only [fires_follow] at h
  refine h.trans ⟨?_, ?_⟩
  · rintro ⟨A, _, hr, u, v, rfl, hB⟩
    exact ⟨A, u, v, hr, hB⟩
  · rintro ⟨A, u, v, hr, hB⟩
    exact ⟨A, _, hr, u, v, rfl, hB⟩

/-! ## Terminals -/

theorem isTerminal_eq_false_of_isNullable (hg : g.WellFormed)
    (h : g.facts.isNullable A = true) : g.isTerminal A = false := by
  obtain ⟨body, hr, -⟩ := (isNullable_iff hg).1 h
  exact not_isTerminal_iff.2 (hg.lt_of_mem_rules hr)

theorem mem_firstOf_terminal (hg : g.WellFormed) (hA : g.isTerminal A = true) :
    t ∈ g.facts.firstOf A ↔ t = A :=
  Facts.mem_firstOf_terminal (sized_facts hg) (isTerminal_iff.1 hA)

theorem isTerminal_of_within (h : Within (g.Clause F t .first) k A) : g.isTerminal t = true := by
  induction k generalizing A with
  | zero => exact h.elim
  | succ k ih =>
    obtain ⟨premises, ⟨_, body, -, -, u, X, v, -, -, hX⟩, hpremises⟩ := h
    rcases hX with ⟨hX, rfl, -⟩ | ⟨-, rfl⟩
    · exact hX
    · exact ih (hpremises X List.mem_cons_self)

/-! ## Heights -/

theorem within_of_isNullable (hg : g.WellFormed) (h : g.facts.isNullable A = true) :
    Within (fun A body => (A, body) ∈ g.rules) g.nonterminals.length A := by
  have hw := (has_facts hg (t := 0) (a := .nullable)).1 h
  refine (Within.congr fun B body => ?_).1 hw
  constructor
  · rintro ⟨_, _, hr, rfl, rfl⟩
    exact hr
  · exact fun hr => ⟨B, body, hr, rfl, rfl⟩

theorem within_of_mem_firstOf (hg : g.WellFormed) (hA : A < g.nonterminals.length)
    (h : t ∈ g.facts.firstOf A) :
    Within (g.Clause g.facts t .first) g.nonterminals.length A :=
  (has_facts hg).1 ⟨(sized_facts hg).first.symm ▸ hA, h⟩

theorem mem_firstOf_of_within (hg : g.WellFormed)
    (h : Within (g.Clause g.facts t .first) k A) : t ∈ g.facts.firstOf A :=
  ((has_facts hg (a := .first)).2 (Within.bounded (fun _ _ => Clause.lt hg) h)).2

end NumberedGrammar

end PredictiveParsing
