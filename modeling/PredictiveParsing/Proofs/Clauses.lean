import Mathlib

/-!
# Derivations by clauses

A clause says that a number follows from some others. Whatever follows has a derivation that is no
higher than there are numbers that follow at all.

* `Within`: what follows by a derivation of bounded height;
* `within_succ_congr`: where one more level adds nothing, no further level does;
* **`Within.bounded`**: a height that is always enough;
* `within_iff_exists`: at that height, what follows is closed under the clauses and nothing else.
-/

namespace PredictiveParsing

/-- What follows from clauses by a derivation of at most the given height. -/
def Within (clause : ℕ → List ℕ → Prop) : ℕ → ℕ → Prop
  | 0, _ => False
  | height + 1, A => ∃ premises, clause A premises ∧ ∀ X ∈ premises, Within clause height X

variable {clause : ℕ → List ℕ → Prop}

theorem Within.succ {height A : ℕ} (h : Within clause height A) :
    Within clause (height + 1) A := by
  induction height generalizing A with
  | zero => exact h.elim
  | succ height ih =>
    obtain ⟨premises, hc, hp⟩ := h
    exact ⟨premises, hc, fun X hX => ih (hp X hX)⟩

theorem Within.mono {m n A : ℕ} (hmn : m ≤ n) (h : Within clause m A) : Within clause n A := by
  induction hmn with
  | refl => exact h
  | step _ ih => exact ih.succ

theorem within_succ_congr {m n : ℕ} (h : ∀ A, Within clause m A ↔ Within clause n A) (A : ℕ) :
    Within clause (m + 1) A ↔ Within clause (n + 1) A :=
  exists_congr fun _ => and_congr_right fun _ => forall₂_congr fun X _ => h X

theorem Within.congr {clause' : ℕ → List ℕ → Prop}
    (h : ∀ A premises, clause A premises ↔ clause' A premises) {n A : ℕ} :
    Within clause n A ↔ Within clause' n A := by
  rw [show clause = clause' from funext fun A => funext fun ps => propext (h A ps)]

/-- **Whatever follows does so within as many levels as there are heads of clauses.** -/
theorem Within.bounded {N : ℕ} (heads : ∀ A premises, clause A premises → A < N) {m A : ℕ}
    (h : Within clause m A) : Within clause N A := by
  classical
  let S : ℕ → Finset ℕ := fun m => (Finset.range N).filter (Within clause m)
  have mem_S : ∀ m A, A ∈ S m ↔ Within clause m A := by
    intro m A
    rw [Finset.mem_filter, Finset.mem_range]
    refine ⟨And.right, fun hA => ⟨?_, hA⟩⟩
    cases m with
    | zero => exact hA.elim
    | succ m => obtain ⟨premises, hc, _⟩ := hA; exact heads A premises hc
  have hmono : Monotone S := fun m n hmn A hA => (mem_S n A).2 (((mem_S m A).1 hA).mono hmn)
  have hstab : ∀ m, (S m).card = (S (m + 1)).card → (S (m + 1)).card = (S (m + 2)).card := by
    intro m hm
    have hS : S m = S (m + 1) := Finset.eq_of_subset_of_card_le (hmono m.le_succ) hm.ge
    have hiff : ∀ A, Within clause m A ↔ Within clause (m + 1) A := fun A => by
      rw [← mem_S, ← mem_S, hS]
    congr 1
    ext A
    rw [mem_S, mem_S, within_succ_congr hiff]
  have hcard : (S (max m N)).card = (S N).card :=
    Nat.stabilises_of_monotone (fun m n hmn => Finset.card_le_card (hmono hmn))
      (fun m => (Finset.card_filter_le _ _).trans (Finset.card_range N).le) hstab (le_max_right m N)
  have hS : S N = S (max m N) :=
    Finset.eq_of_subset_of_card_le (hmono (le_max_right m N)) hcard.le
  rw [← mem_S, hS, mem_S]
  exact h.mono (le_max_left m N)

theorem Within.of_clause {N : ℕ} (heads : ∀ A premises, clause A premises → A < N) {A : ℕ}
    {premises : List ℕ} (h : clause A premises) (hp : ∀ X ∈ premises, Within clause N X) :
    Within clause N A :=
  Within.bounded heads (m := N + 1) ⟨premises, h, hp⟩

theorem within_iff_exists {N : ℕ} (heads : ∀ A premises, clause A premises → A < N) {A : ℕ} :
    Within clause N A ↔ ∃ premises, clause A premises ∧ ∀ X ∈ premises, Within clause N X := by
  refine ⟨fun h => ?_, fun ⟨_, hc, hp⟩ => Within.of_clause heads hc hp⟩
  obtain ⟨premises, hc, hp⟩ := h.succ
  exact ⟨premises, hc, hp⟩

end PredictiveParsing
