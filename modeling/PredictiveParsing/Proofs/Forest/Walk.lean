import Mathlib
import PredictiveParsing.Proofs.Tree

/-!
# Walks visit a tree

Where the nodes of a forest unfold to a tree, a walk through the forest visits the nodes of the
tree in their order.

* **`preorder_of_unfolds`**: a walk passes through a whole tree;
* `Forest.IsTree`: all nodes of a forest hang below the root, in a tree;
* **`leaves_eq`**, `tree_eq`: the leaves and the shape of such a forest;
* `IsTree.reachable`, `IsTree.mem_leaves`, `IsTree.nodup_leaves`: what follows for its nodes.
-/

namespace PredictiveParsing

open PredictiveParsing.Tree

section Preorder

variable {α β : Type} {next : α → List α}

theorem preorder_map {next' : β → List β} {φ : α → β} (h : ∀ a, (next a).map φ = next' (φ a))
    (limit : ℕ) (stack done : List α) :
    (preorder next limit stack done).map φ =
      preorder next' limit (stack.map φ) (done.map φ) := by
  induction limit generalizing stack done with
  | zero => rw [preorder, preorder, List.map_reverse]
  | succ limit ih =>
    cases stack with
    | nil => rw [preorder, List.map_nil, preorder, List.map_reverse]
    | cons a stack =>
      rw [preorder, List.map_cons, preorder, ih, List.map_append, h, List.map_cons]

theorem preorder_nil (limit : ℕ) (done : List α) :
    preorder next limit [] done = done.reverse := by
  cases limit <;> rw [preorder]

/-- **A walk passes through a whole tree** before it goes on with its stack. -/
theorem preorder_of_unfolds {t : Tree α} (h : t.Unfolds next) (limit : ℕ) (stack done : List α) :
    preorder next (t.size + limit) (t.label :: stack) done =
      preorder next limit stack (t.labels.reverse ++ done) := by
  induction t using Tree.induction generalizing limit stack done with
  | node a ts ih =>
    have below : ∀ us : List (Tree α), (∀ t ∈ us, t ∈ ts) → ∀ limit done,
        preorder next (sizeAll us + limit) (us.map Tree.label ++ stack) done =
          preorder next limit stack ((us.flatMap labels).reverse ++ done) := by
      intro us
      induction us with
      | nil => intro _ limit done; rw [sizeAll, Nat.zero_add]; rfl
      | cons t us ihus =>
        intro hus limit done
        have ht := hus t List.mem_cons_self
        rw [sizeAll, Nat.add_assoc, List.map_cons, List.cons_append, ih t ht (h.of_mem ht),
          ihus (fun u hu => hus u (List.mem_cons_of_mem _ hu)), List.flatMap_cons,
          List.reverse_append, List.append_assoc]
    rw [size, Nat.add_right_comm, Tree.label, preorder, h.next_eq, below ts (fun _ ht => ht),
      labels_node, List.reverse_cons, List.append_assoc]
    rfl

end Preorder

namespace Forest

variable {f : Forest} {t : Tree ℕ} {i : ℕ}

/-! ## Forests that are trees -/

theorem map_fst_outline (ht : t.Unfolds f.children) (hroot : t.label = root)
    (hsize : t.size ≤ f.size) : f.outline.map (·.1) = t.labels := by
  obtain ⟨limit, hlimit⟩ := Nat.exists_eq_add_of_le hsize
  have hnext : ∀ v : ℕ × ℕ, ((f.children v.1).map fun c => (c, v.2 + 1)).map Prod.fst =
      f.children v.1 := by
    intro v
    rw [List.map_map]
    exact List.map_id _
  rw [outline, preorder_map hnext, hlimit]
  change preorder f.children (t.size + limit) [root] [] = t.labels
  rw [← hroot, preorder_of_unfolds ht, preorder_nil, List.append_nil, List.reverse_reverse]

theorem leaves_eq (ht : t.Unfolds f.children) (hroot : t.label = root)
    (hsize : t.size ≤ f.size) : f.leaves = t.leafLabels := by
  rw [leaves, map_fst_outline ht hroot hsize, ht.leafLabels_eq]
  rfl

theorem treeWithin_eq {levels : ℕ} (ht : t.Unfolds f.children) (hlevels : t.size ≤ levels + 1) :
    f.treeWithin levels t.label = t.map f.label := by
  induction levels generalizing t with
  | zero =>
    cases t with
    | node a ts =>
      cases ts with
      | nil => rw [map_node]; rfl
      | cons u ts =>
        have := u.size_pos
        rw [Tree.size, sizeAll] at hlevels
        omega
  | succ levels ih =>
    cases t with
    | node a ts =>
      rw [Tree.label, treeWithin, ht.next_eq, map_node, List.map_map]
      refine congrArg (Tree.node (f.label a)) (List.map_congr_left fun u hu => ?_)
      refine ih (ht.of_mem hu) ((size_le_sizeAll hu).trans ?_)
      rw [Tree.size] at hlevels
      omega

theorem tree_eq (ht : t.Unfolds f.children) (hroot : t.label = root) (hsize : t.size ≤ f.size) :
    f.tree = t.map f.label := by
  rw [tree, ← hroot]
  exact treeWithin_eq ht (hsize.trans (Nat.le_succ _))

/-- All nodes hang below the root, in a tree. -/
def IsTree (f : Forest) : Prop :=
  ∃ t : Tree ℕ, t.Unfolds f.children ∧ t.label = root ∧ t.labels.Perm (List.range f.size)

theorem size_eq_of_perm (h : t.labels.Perm (List.range f.size)) : t.size = f.size := by
  rw [← length_labels, h.length_eq, List.length_range]

/-- **Every node is reached from the root.** -/
theorem IsTree.reachable (h : f.IsTree) (hi : i < f.size) :
    Relation.ReflTransGen (fun j i => i ∈ f.children j) root i := by
  obtain ⟨t, ht, hroot, hperm⟩ := h
  rw [← hroot]
  exact ht.reachable (hperm.mem_iff.2 (List.mem_range.2 hi))

theorem lt_of_mem_children_self {j : ℕ} (h : i ∈ f.children j) : j < f.size := by
  by_contra hj
  rw [children, Array.getElem?_eq_none (Nat.le_of_not_lt hj)] at h
  exact absurd h List.not_mem_nil

theorem IsTree.lt_of_mem_children (h : f.IsTree) {j : ℕ} (hi : i ∈ f.children j) : i < f.size := by
  obtain ⟨t, ht, -, hperm⟩ := h
  rw [← List.mem_range, ← hperm.mem_iff]
  exact ht.mem_labels (hperm.mem_iff.2 (List.mem_range.2 (lt_of_mem_children_self hi))) hi

theorem IsTree.mem_leaves (h : f.IsTree) : i ∈ f.leaves ↔ i < f.size ∧ f.children i = [] := by
  obtain ⟨t, ht, hroot, hperm⟩ := h
  rw [leaves_eq ht hroot (size_eq_of_perm hperm).le, ht.leafLabels_eq, List.mem_filter,
    hperm.mem_iff, List.mem_range, List.isEmpty_iff]

theorem IsTree.nodup_leaves (h : f.IsTree) : f.leaves.Nodup := by
  obtain ⟨t, ht, hroot, hperm⟩ := h
  rw [leaves_eq ht hroot (size_eq_of_perm hperm).le, ht.leafLabels_eq]
  exact (hperm.nodup_iff.2 List.nodup_range).filter _

theorem IsTree.frontier_tree (h : f.IsTree) : f.tree.frontier = f.frontier := by
  obtain ⟨t, ht, hroot, hperm⟩ := h
  have hsize := (size_eq_of_perm hperm).le
  rw [Tree.frontier, tree_eq ht hroot hsize, leafLabels_map, frontier, leafLabels,
    leaves_eq ht hroot hsize]

theorem IsTree.size_tree (h : f.IsTree) : f.tree.size = f.size := by
  obtain ⟨t, ht, hroot, hperm⟩ := h
  rw [tree_eq ht hroot (size_eq_of_perm hperm).le, size_map, size_eq_of_perm hperm]

end Forest

end PredictiveParsing
