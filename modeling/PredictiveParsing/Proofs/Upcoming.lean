import Mathlib
import PredictiveParsing.Proofs.Reduced

/-!
# What comes up when trees are read

When a derivation tree is read from the left, a nonterminal comes up together with the symbols that
are still to be read behind it: what is left of the productions above it. In a reduced grammar
everything that can come up does so in a tree of the start symbol, whatever trees it is to be read
with.

* `Grammar.Upcoming`: a symbol that can come up, and what stands behind it;
* **`exists_upcoming_of_derives`**: every symbol of what the start symbol derives can come up;
* **`Upcoming.exists_reading`**: a tree of the start symbol in which given trees come up.
-/

namespace PredictiveParsing.Grammar

open PredictiveParsing.Tree

variable {g : Grammar} {s A : Char} {u v as behind : Text}

/-- The symbol can come up in front of the symbols behind it: it is the start symbol, or stands in a
production of a symbol that can come up. -/
inductive Upcoming (g : Grammar) : Char → Text → Prop where
  | start {s : Char} (hs : g.start? = some s) : Upcoming g s []
  | step {A B : Char} {u v behind : Text} (h : Upcoming g A behind)
      (hright : u ++ B :: v ∈ g.productions A) : Upcoming g B (v ++ behind)

theorem Upcoming.epsilon_notMem (h : g.Upcoming A behind) : epsilon ∉ behind := by
  induction h with
  | start => exact List.not_mem_nil
  | step _ hright ih =>
    have hnotMem := epsilon_notMem_of_mem_productions hright
    simp only [List.mem_append, List.mem_cons, not_or] at hnotMem ⊢
    exact ⟨hnotMem.2.2, ih⟩

theorem append_eq_append_cons {as bs u v : Text} {a : Char} (h : as ++ bs = u ++ a :: v) :
    (∃ w, as = u ++ a :: w ∧ v = w ++ bs) ∨ ∃ w, u = as ++ w ∧ bs = w ++ a :: v := by
  rcases List.append_eq_append_iff.1 h with ⟨w, hu, hbs⟩ | ⟨w, has, hv⟩
  · exact Or.inr ⟨w, hu, hbs⟩
  · cases w with
    | nil => exact Or.inr ⟨[], by simpa using has.symm, hv.symm⟩
    | cons b w =>
      obtain ⟨rfl, rfl⟩ := List.cons.inj hv
      exact Or.inl ⟨w, has, rfl⟩

/-- **Every symbol of what the start symbol derives can come up**, in front of something from which
what stands behind it is derived. -/
theorem exists_upcoming_of_derives (hs : g.start? = some s) (h : g.Derives [s] as)
    (has : as = u ++ A :: v) : ∃ behind, g.Upcoming A behind ∧ g.Derives behind v := by
  induction h generalizing u A v with
  | refl =>
    obtain ⟨rfl, rfl⟩ : A = s ∧ v = [] := by
      cases u with
      | nil => simpa [eq_comm] using has
      | cons => simp at has
    exact ⟨[], .start hs, .refl []⟩
  | tail _ hstep ih =>
    obtain @⟨before, B, right, after, hright⟩ := hstep
    -- The symbol stands before, inside or behind the production.
    rw [List.append_assoc] at has
    rcases append_eq_append_cons has with ⟨w, rfl, rfl⟩ | ⟨w, rfl, hrest⟩
    · obtain ⟨behind, hA, hbehind⟩ := ih (u := u) (A := A) (v := w ++ B :: after) (by simp)
      have hstep : Produces (fun A right => right ∈ g.productions A) _ _ :=
        .replace w after hright
      rw [List.append_assoc] at hstep
      exact ⟨behind, hA, hbehind.tail hstep⟩
    rcases append_eq_append_cons hrest with ⟨w', rfl, rfl⟩ | ⟨w', rfl, rfl⟩
    · obtain ⟨behind, hB, hbehind⟩ := ih rfl
      exact ⟨w' ++ behind, .step hB hright, Derives.append (.refl w') hbehind⟩
    · exact ih (u := before ++ B :: w') (by simp)

/-- **Given trees come up in a tree of the start symbol**, if their roots can come up. -/
theorem Upcoming.exists_reading (hg : g.Reduced) (h : g.Upcoming A behind) {t : Tree Char}
    (ht : t.IsDerivation g) (hlabel : t.label = A) {ts : List (Tree Char)}
    (hts : ∀ u ∈ ts, u.IsDerivation g) (hlabels : ts.map label = behind) :
    ∃ root : Tree Char, root.IsDerivation g ∧ g.start? = some root.label ∧
      Reading g [root] (t :: ts) := by
  induction h generalizing t ts with
  | start hs =>
    obtain rfl := List.map_eq_nil_iff.1 hlabels
    exact ⟨t, ht, hlabel ▸ hs, .refl [t]⟩
  | @step A B u v behind _ hright ih =>
    obtain ⟨vs, rest, rfl, hvs, hrest⟩ := List.map_eq_append_iff.1 hlabels
    have hε : epsilon ∉ u := fun hmem =>
      epsilon_notMem_of_mem_productions hright (List.mem_append_left _ hmem)
    obtain ⟨us, hus, hus'⟩ := hg.exists_trees hε
    have hcs : ∀ c ∈ us ++ t :: vs, c.IsDerivation g := by
      simp only [List.forall_mem_append, List.forall_mem_cons] at hts ⊢
      exact ⟨hus', ht, hts.1⟩
    have hlabels : (us ++ t :: vs).map label ∈ g.productions A := by
      rw [List.map_append, List.map_cons, hus, hlabel, hvs]
      exact hright
    obtain ⟨root, hroot, hs, hreading⟩ := ih (.ofProduction hlabels hcs) rfl
      (fun c hc => hts c (List.mem_append_right _ hc)) hrest
    refine ⟨root, hroot, hs, hreading.trans (.expand A _ hlabels hcs ?_)⟩
    rw [List.append_assoc]
    exact reading_of_isDerivation hus' _

end PredictiveParsing.Grammar
