import Mathlib
import PredictiveParsing.Proofs.Facts.Step

/-!
# Pass after pass

An analysis goes through all productions again and again, until a whole pass adds nothing. Facts are
never taken back, so a pass adds nothing iff it ends with the facts with which it began.

* `Facts.has_foldl_apply`: no fact is lost on the way through some productions;
* **`pass_eq_self_iff`**: a pass that ends where it began is one in which no production adds
  anything;
* `NumberedGrammar.Settles`: the passes of an analysis, without a bound on their number;
* `exists_settles`, **`complete_of_settles`**: passes that come to rest, and the bound that is never
  reached.
-/

namespace PredictiveParsing

variable {g : NumberedGrammar} {a : Analysis} {F F' : Facts} {t B n k : ℕ}

namespace Facts

theorem Sized.foldl_apply (hF : F.Sized n) (rules : List (ℕ × List ℕ)) :
    (rules.foldl (fun F r => a.apply g F r.1 r.2) F).Sized n := by
  induction rules generalizing F with
  | nil => exact hF
  | cons r rules ih => exact ih (hF.apply g r.1 r.2 a)

theorem has_foldl_apply (hF : F.Sized g.nonterminals.length) {rules : List (ℕ × List ℕ)}
    (hrules : ∀ r ∈ rules, r.1 < g.nonterminals.length) (h : F.Has t a B) :
    (rules.foldl (fun F r => a.apply g F r.1 r.2) F).Has t a B := by
  induction rules generalizing F with
  | nil => exact h
  | cons r rules ih =>
    have hr := hrules r List.mem_cons_self
    exact ih (hF.apply g r.1 r.2 a) (fun r' hr' => hrules r' (List.mem_cons_of_mem _ hr'))
      ((has_apply hF hr).2 (Or.inl h))

theorem foldl_apply_eq_self_iff (hF : F.Sized g.nonterminals.length)
    {rules : List (ℕ × List ℕ)} (hrules : ∀ r ∈ rules, r.1 < g.nonterminals.length) :
    rules.foldl (fun F r => a.apply g F r.1 r.2) F = F ↔
      ∀ r ∈ rules, a.apply g F r.1 r.2 = F := by
  induction rules with
  | nil => simp
  | cons r rules ih =>
    have hr := hrules r List.mem_cons_self
    have htail : ∀ r' ∈ rules, r'.1 < g.nonterminals.length := fun r' hr' =>
      hrules r' (List.mem_cons_of_mem _ hr')
    have happly := hF.apply g r.1 r.2 a
    rw [List.foldl_cons, List.forall_mem_cons]
    constructor
    · intro h
      -- What the first production adds is still there at the end, so it was there before.
      have hfirst : a.apply g F r.1 r.2 = F := by
        refine (frame_apply g F r.1 r.2 a).eq_of_has happly hF fun t B =>
          ⟨fun hB => ?_, fun hB => ?_⟩
        · have hlast := has_foldl_apply happly htail hB
          rwa [h] at hlast
        · exact (has_apply hF hr).2 (Or.inl hB)
      rw [hfirst] at h
      exact ⟨hfirst, (ih htail).1 h⟩
    · rintro ⟨hfirst, hrest⟩
      rw [hfirst]
      exact (ih htail).2 hrest

end Facts

namespace NumberedGrammar

open Facts

theorem sized_pass (hF : F.Sized n) : (g.pass a F).Sized n := hF.foldl_apply g.rules

/-- **A pass ends where it began** iff no production adds anything. -/
theorem pass_eq_self_iff (hg : g.WellFormed) (hF : F.Sized g.nonterminals.length) :
    g.pass a F = F ↔ ∀ r ∈ g.rules, a.apply g F r.1 r.2 = F :=
  foldl_apply_eq_self_iff hF fun _ hr => hg.lt_of_mem_rules hr

/-- The passes of an analysis: pass after pass, until no production adds anything in a whole pass.
The last pass is counted. -/
inductive Settles (g : NumberedGrammar) (a : Analysis) : Facts → Facts → ℕ → Prop where
  | last {F : Facts} (h : ∀ r ∈ g.rules, a.apply g F r.1 r.2 = F) : Settles g a F F 1
  | next {F F' : Facts} {k : ℕ} (h : ∃ r ∈ g.rules, a.apply g F r.1 r.2 ≠ F)
      (rest : Settles g a (g.pass a F) F' k) : Settles g a F F' (k + 1)

/-- **The analysis takes these passes**, if its bound allows for them. -/
theorem complete_of_settles (hg : g.WellFormed) (hF : F.Sized g.nonterminals.length)
    (h : g.Settles a F F' k) (hk : k ≤ g.passLimit) : g.complete a F = (F', k) := by
  unfold complete
  generalize g.passLimit = bound at hk
  induction h generalizing bound with
  | last h =>
    obtain ⟨bound, rfl⟩ := Nat.exists_eq_succ_of_ne_zero (Nat.ne_zero_of_lt hk)
    exact saturate_fixed ((pass_eq_self_iff hg hF).2 h) bound
  | next h _ ih =>
    obtain ⟨bound, rfl⟩ := Nat.exists_eq_succ_of_ne_zero (Nat.ne_zero_of_lt hk)
    obtain ⟨r, hr, hne⟩ := h
    have hpass : g.pass a _ ≠ _ := fun heq => hne ((pass_eq_self_iff hg hF).1 heq r hr)
    have hrest := ih (sized_pass hF) bound (Nat.le_of_succ_le_succ hk)
    rw [saturate, if_neg hpass, hrest]

/-- **Passes that come to rest** after `n` of them do so with at most one pass more. -/
theorem exists_settles (hg : g.WellFormed) (hF : F.Sized g.nonterminals.length)
    (h : (g.pass a)^[n + 1] F = (g.pass a)^[n] F) :
    ∃ k ≤ n + 1, g.Settles a F ((g.pass a)^[n] F) k := by
  induction n generalizing F with
  | zero => exact ⟨1, le_rfl, .last ((pass_eq_self_iff hg hF).1 h)⟩
  | succ n ih =>
    by_cases hrest : g.pass a F = F
    · rw [Function.iterate_fixed hrest]
      exact ⟨1, Nat.succ_le_succ (Nat.zero_le _), .last ((pass_eq_self_iff hg hF).1 hrest)⟩
    · obtain ⟨k, hk, hsettles⟩ := ih (sized_pass hF) h
      refine ⟨k + 1, Nat.succ_le_succ hk, .next ?_ hsettles⟩
      by_contra hnone
      push Not at hnone
      exact hrest ((pass_eq_self_iff hg hF).2 hnone)

end NumberedGrammar

end PredictiveParsing
