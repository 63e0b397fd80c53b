import Mathlib
import PredictiveParsing.Proofs.Forest.Links

/-!
# The tree below a node

In a linked forest the children of a node, their children, and so on make up a finite tree in which
no node stands twice.

* **`Linked.exists_unfolds`**: the tree below a node;
* `Linked.suffix_lineage`: the ancestors of an ancestor are the last of the ancestors;
* **`Linked.nodup_labels`**: no node stands twice in the tree;
* `mem_labels_iff_reachable`: the tree has the nodes that are reached from its root.
-/

namespace PredictiveParsing.Forest

open PredictiveParsing.Tree

variable {f : Forest} {i j c p : ℕ} {t : Tree ℕ}

theorem exists_unfolds_of_forall {α : Type} {next : α → List α} {as : List α}
    (h : ∀ a ∈ as, ∃ t : Tree α, t.label = a ∧ t.Unfolds next) :
    ∃ ts : List (Tree α), ts.map Tree.label = as ∧ ∀ t ∈ ts, t.Unfolds next := by
  induction as with
  | nil => exact ⟨[], rfl, by simp⟩
  | cons a as ih =>
    obtain ⟨t, rfl, ht⟩ := h a List.mem_cons_self
    obtain ⟨ts, rfl, hts⟩ := ih fun b hb => h b (List.mem_cons_of_mem _ hb)
    exact ⟨t :: ts, rfl, List.forall_mem_cons.2 ⟨ht, hts⟩⟩

theorem mem_labels_iff_reachable (ht : t.Unfolds f.children) :
    i ∈ t.labels ↔ Relation.ReflTransGen (fun j i => i ∈ f.children j) t.label i := by
  refine ⟨ht.reachable, fun hi => ?_⟩
  induction hi with
  | refl => exact label_mem_labels t
  | tail _ hi ih => exact ht.mem_labels ih hi

namespace Linked

variable (h : f.Linked)
include h

theorem lt_of_mem_children (hc : c ∈ f.children p) : c < f.size :=
  lt_of_parent?_eq_some ((h.mem_children_iff p c).1 hc)

theorem lineage_of_mem_children (hc : c ∈ f.children p) : f.lineage c = c :: f.lineage p :=
  h.lineage_of_some ((h.mem_children_iff p c).1 hc)

/-- **Below every node is a finite tree.** Going down makes the way up longer, and that way is no
longer than there are nodes. -/
theorem exists_unfolds (hi : i < f.size) : ∃ t : Tree ℕ, t.label = i ∧ t.Unfolds f.children := by
  induction hn : f.size - (f.lineage i).length using Nat.strong_induction_on generalizing i with
  | _ n ih =>
    have hchildren : ∀ c ∈ f.children i, ∃ t : Tree ℕ, t.label = c ∧ t.Unfolds f.children := by
      intro c hc
      have hlt := h.lt_of_mem_children hc
      have hlength := h.length_lineageWithin_le hlt f.size
      rw [← lineage, h.lineage_of_mem_children hc, List.length_cons] at hlength
      refine ih _ ?_ hlt rfl
      rw [h.lineage_of_mem_children hc, List.length_cons]
      omega
    obtain ⟨ts, hts, hunfolds⟩ := exists_unfolds_of_forall hchildren
    exact ⟨.node i ts, rfl, .intro i ts hts.symm hunfolds⟩

/-! ## No node twice -/

/-- **The ancestors of an ancestor** are the last of the ancestors. -/
theorem suffix_lineage (hi : i < f.size) (hj : j ∈ f.lineage i) :
    f.lineage j <:+ f.lineage i := by
  have hup := (h.mem_lineage_iff hi).1 hj
  clear hj
  induction hup using Relation.ReflTransGen.head_induction_on with
  | refl => exact List.suffix_refl _
  | head hp _ ih =>
    rw [h.lineage_of_some hp]
    exact (ih (h.lt_of_parent? hp)).trans (List.suffix_cons _ _)

theorem isAncestor_iff_reachable :
    f.IsAncestor j i ↔ Relation.ReflTransGen (fun j i => i ∈ f.children j) j i := by
  simp only [h.mem_children_iff]
  exact Relation.reflTransGen_swap

theorem lt_of_mem_labels (ht : t.Unfolds f.children) (hroot : t.label < f.size)
    (hi : i ∈ t.labels) : i < f.size := by
  rcases Relation.ReflTransGen.cases_tail (ht.reachable hi) with rfl | ⟨p, -, hc⟩
  · exact hroot
  · exact h.lt_of_mem_children hc

theorem label_mem_lineage (ht : t.Unfolds f.children) (hroot : t.label < f.size)
    (hi : i ∈ t.labels) : t.label ∈ f.lineage i :=
  (h.mem_lineage_iff (h.lt_of_mem_labels ht hroot hi)).2
    (h.isAncestor_iff_reachable.2 (ht.reachable hi))

theorem eq_of_mem_lineage (hi : i < f.size) (hc : c ∈ f.children p) (hj : j ∈ f.children p)
    (hci : c ∈ f.lineage i) (hji : j ∈ f.lineage i) : c = j := by
  have hlength : (f.lineage c).length = (f.lineage j).length := by
    rw [h.lineage_of_mem_children hc, h.lineage_of_mem_children hj, List.length_cons,
      List.length_cons]
  -- Both ways up are ends of the way up from `i`, and they are equally long.
  have hsuffix := List.suffix_of_suffix_length_le (h.suffix_lineage hi hci)
    (h.suffix_lineage hi hji) hlength.le
  have heq := hsuffix.eq_of_length hlength
  rw [h.lineage_of_mem_children hc, h.lineage_of_mem_children hj] at heq
  exact (List.cons.inj heq).1

theorem notMem_lineage (hc : c ∈ f.children p) : c ∉ f.lineage p := by
  intro hmem
  have hlength := (h.suffix_lineage (lt_of_mem_children_self hc) hmem).length_le
  rw [h.lineage_of_mem_children hc, List.length_cons] at hlength
  omega

/-- **No node stands twice** in the tree below a node. -/
theorem nodup_labels (ht : t.Unfolds f.children) (hroot : t.label < f.size) : t.labels.Nodup := by
  induction t using Tree.induction with
  | node i ts ih =>
    have hchild : ∀ u ∈ ts, u.label ∈ f.children i := by
      intro u hu
      rw [ht.next_eq]
      exact List.mem_map_of_mem hu
    have hlt : ∀ u ∈ ts, u.label < f.size := fun u hu => h.lt_of_mem_children (hchild u hu)
    have hup : ∀ u ∈ ts, ∀ j ∈ u.labels, u.label ∈ f.lineage j := fun u hu j hj =>
      h.label_mem_lineage (ht.of_mem hu) (hlt u hu) hj
    rw [labels_node, List.nodup_cons, List.nodup_flatMap]
    refine ⟨fun hi => ?_, fun u hu => ih u hu (ht.of_mem hu) (hlt u hu), ?_⟩
    · obtain ⟨u, hu, hi⟩ := List.mem_flatMap.1 hi
      exact h.notMem_lineage (hchild u hu) (hup u hu i hi)
    · have hdistinct := h.nodup_children i
      rw [ht.next_eq, List.Nodup, List.pairwise_map] at hdistinct
      refine hdistinct.imp_of_mem fun {u v} hu hv hne j hju hjv => hne ?_
      have hj := h.lt_of_mem_labels (ht.of_mem hu) (hlt u hu) hju
      exact h.eq_of_mem_lineage hj (hchild u hu) (hchild v hv) (hup u hu j hju) (hup v hv j hjv)

theorem size_tree_le (ht : t.Unfolds f.children) (hroot : t.label < f.size) : t.size ≤ f.size := by
  have hsub : t.labels ⊆ List.range f.size := fun j hj =>
    List.mem_range.2 (h.lt_of_mem_labels ht hroot hj)
  have hle := ((h.nodup_labels ht hroot).subperm hsub).length_le
  rwa [length_labels, List.length_range] at hle

end Linked

end PredictiveParsing.Forest
