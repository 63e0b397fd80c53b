import Mathlib
import PredictiveParsing.Grammar.Basic

/-!
# The rules of each left side together

A grammar whose rules are sorted by their left sides, in the order in which these first appear, is
the same grammar for every view of it.

* `distinct_flatMap`, `flatMap_ite_eq`: lists in blocks;
* `Grammar.rulesOf`, `Grammar.grouped`: the rules of one left side, and of each in turn;
* **`nonterminals_grouped`**, `start?_grouped`, **`productions_grouped`**: nothing else changes.
-/

namespace PredictiveParsing

/-! ## Blocks -/

section Distinct

variable {α : Type} [DecidableEq α]

theorem distinct_append (as bs : List α) :
    distinct (as ++ bs) = distinct as ++ (distinct bs).filter (· ∉ as) := by
  induction as with
  | nil => simp [distinct]
  | cons a as ih =>
    rw [List.cons_append, distinct, ih, List.filter_append, List.filter_filter, distinct]
    simp [not_or]

theorem distinct_of_forall_eq {a : α} {as : List α} (hne : as ≠ []) (h : ∀ b ∈ as, b = a) :
    distinct as = [a] := by
  obtain ⟨b, as, rfl⟩ := List.exists_cons_of_ne_nil hne
  rw [List.forall_mem_cons] at h
  obtain rfl := h.1
  rw [distinct, List.filter_eq_nil_iff.2]
  intro c hc
  simpa using h.2 c (mem_distinct.1 hc)

theorem distinct_flatMap {as : List α} {f : α → List α} (has : as.Nodup)
    (hne : ∀ a ∈ as, f a ≠ []) (hf : ∀ a ∈ as, ∀ b ∈ f a, b = a) :
    distinct (as.flatMap f) = as := by
  induction as with
  | nil => rfl
  | cons a as ih =>
    rw [List.nodup_cons] at has
    rw [List.forall_mem_cons] at hne hf
    rw [List.flatMap_cons, distinct_append, distinct_of_forall_eq hne.1 hf.1, ih has.2 hne.2 hf.2,
      List.singleton_append, List.filter_eq_self.2]
    intro b hb
    have hba : b ∉ f a := fun h => has.1 (hf.1 b h ▸ hb)
    simpa using hba

theorem flatMap_ite_eq {β : Type} {as : List α} (has : as.Nodup) (a : α) (bs : List β) :
    (as.flatMap fun a' => if a' = a then bs else []) = if a ∈ as then bs else [] := by
  induction as with
  | nil => rfl
  | cons a' as ih =>
    rw [List.nodup_cons] at has
    rw [List.flatMap_cons, ih has.2]
    by_cases h : a' = a
    · subst h
      simp [has.1]
    · simp [h, Ne.symm h]

end Distinct

/-! ## Grouping -/

namespace Grammar

variable {g : Grammar} {B : Char}

/-- The rules of a left side. -/
def rulesOf (g : Grammar) (B : Char) : List Rule := g.rules.filter (·.left.char = B)

/-- The grammar with the rules of each left side brought together. -/
def grouped (g : Grammar) : Grammar := ⟨g.nonterminals.flatMap g.rulesOf⟩

theorem mem_rulesOf {r : Rule} : r ∈ g.rulesOf B ↔ r ∈ g.rules ∧ r.left.char = B := by
  simp [rulesOf]

theorem rulesOf_ne_nil (h : B ∈ g.nonterminals) : g.rulesOf B ≠ [] := by
  obtain ⟨r, hr, hB⟩ := mem_nonterminals.1 h
  exact List.ne_nil_of_mem (mem_rulesOf.2 ⟨hr, hB⟩)

theorem start?_eq (g : Grammar) : g.start? = g.nonterminals.head? := by
  rw [start?, nonterminals]
  cases g.rules <;> rfl

theorem nonterminals_grouped (g : Grammar) : g.grouped.nonterminals = g.nonterminals := by
  have hmap : g.grouped.rules.map (·.left.char) =
      g.nonterminals.flatMap fun B => (g.rulesOf B).map (·.left.char) := List.map_flatMap
  rw [nonterminals, hmap]
  refine distinct_flatMap (nodup_distinct _) (fun B hB => ?_) fun B _ c hc => ?_
  · simpa using rulesOf_ne_nil hB
  · obtain ⟨r, hr, rfl⟩ := List.mem_map.1 hc
    exact (mem_rulesOf.1 hr).2

theorem start?_grouped (g : Grammar) : g.grouped.start? = g.start? := by
  rw [start?_eq, start?_eq, nonterminals_grouped]

theorem rulesOf_grouped (g : Grammar) (B : Char) : g.grouped.rulesOf B = g.rulesOf B := by
  have hblock (A : Char) :
      (g.rulesOf A).filter (·.left.char = B) = if A = B then g.rulesOf B else [] := by
    by_cases hA : A = B
    · subst hA
      simp [rulesOf, List.filter_filter]
    · rw [if_neg hA, List.filter_eq_nil_iff]
      intro r hr
      simpa [(mem_rulesOf.1 hr).2] using hA
  have hnone (hB : B ∉ g.nonterminals) : g.rulesOf B = [] := by
    rw [List.eq_nil_iff_forall_not_mem]
    exact fun r hr => hB (mem_nonterminals.2 ⟨r, mem_rulesOf.1 hr⟩)
  calc g.grouped.rulesOf B
      = g.nonterminals.flatMap fun A => (g.rulesOf A).filter (·.left.char = B) :=
        List.filter_flatMap
    _ = g.nonterminals.flatMap fun A => if A = B then g.rulesOf B else [] :=
        List.flatMap_congr fun A _ => hblock A
    _ = if B ∈ g.nonterminals then g.rulesOf B else [] := flatMap_ite_eq (nodup_distinct _) B _
    _ = g.rulesOf B := ite_eq_left_iff.2 fun hB => (hnone hB).symm

theorem productions_eq (g : Grammar) (B : Char) : g.productions B = (g.rulesOf B).map (·.right) :=
  rfl

theorem productions_grouped (g : Grammar) (B : Char) :
    g.grouped.productions B = g.productions B := by
  rw [productions_eq, productions_eq, rulesOf_grouped]

end Grammar

end PredictiveParsing
