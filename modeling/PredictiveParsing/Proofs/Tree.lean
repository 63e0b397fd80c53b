import Mathlib
import PredictiveParsing.Tree

/-!
# Trees and their labels

* **`Tree.induction`**: what holds of a tree if it holds of its children holds of every tree;
* `Tree.labels`, `Tree.map`: the labels of all nodes, and a tree with other labels;
* `leafLabels_node`, `frontier_node`, `labels_node`, `map_node`: one node at a time;
* `Tree.Unfolds`: the children of every node are given by a function;
* `Tree.graft`: a tree with new leaves below one of its leaves; **`leafLabels_graft`**,
  **`labels_graft`**: what becomes of its leaves and of its nodes.
-/

namespace PredictiveParsing.Tree

variable {α β : Type} {a : α} {ts : List (Tree α)}

/-- **Induction over a tree**, by way of all children of a node. -/
@[elab_as_elim]
theorem induction {P : Tree α → Prop} (node : ∀ a ts, (∀ t ∈ ts, P t) → P (.node a ts)) :
    ∀ t, P t
  | .node a ts => node a ts fun t _ => induction node t

/-! ## Sizes and leaves -/

theorem sizeAll_eq : sizeAll ts = (ts.map size).sum := by
  induction ts with
  | nil => rfl
  | cons t ts ih => rw [sizeAll, ih, List.map_cons, List.sum_cons]

theorem size_le_sizeAll {t : Tree α} (h : t ∈ ts) : t.size ≤ sizeAll ts := by
  rw [sizeAll_eq]
  exact List.le_sum_of_mem (List.mem_map_of_mem h)

theorem size_pos (t : Tree α) : 0 < t.size := by
  cases t with
  | node a ts => exact Nat.succ_pos _

theorem leafLabelsAll_eq : leafLabelsAll ts = ts.flatMap leafLabels := by
  induction ts with
  | nil => rfl
  | cons t ts ih => rw [leafLabelsAll, ih, List.flatMap_cons]

@[simp]
theorem leafLabels_leaf : (node a []).leafLabels = [a] := by
  rw [leafLabels]

theorem leafLabels_node (h : ts ≠ []) : (node a ts).leafLabels = ts.flatMap leafLabels := by
  cases ts with
  | nil => exact absurd rfl h
  | cons t ts => rw [leafLabels, leafLabelsAll_eq, List.flatMap_cons]

theorem frontier_leaf {a : Char} (h : a ≠ epsilon) : (node a []).frontier = [a] := by
  rw [frontier, leafLabels_leaf, List.filter_cons_of_pos (by simpa using h), List.filter_nil]

theorem frontier_vanish (A : Char) : (node A [node epsilon []]).frontier = [] := by
  rw [frontier, leafLabels_node (List.cons_ne_nil _ _)]
  simp

theorem frontier_node {a : Char} {ts : List (Tree Char)} (h : ts ≠ []) :
    (node a ts).frontier = ts.flatMap frontier := by
  rw [frontier, leafLabels_node h, List.filter_flatMap]
  rfl

/-! ## All labels -/

mutual

/-- The labels of all nodes, parents before their children. -/
def labels : Tree α → List α
  | node a ts => a :: labelsAll ts

/-- The labels of the nodes of several trees. -/
def labelsAll : List (Tree α) → List α
  | [] => []
  | t :: ts => t.labels ++ labelsAll ts

end

theorem labels_node : (node a ts).labels = a :: ts.flatMap labels := by
  have h : labelsAll ts = ts.flatMap labels := by
    induction ts with
    | nil => rfl
    | cons t ts ih => rw [labelsAll, ih, List.flatMap_cons]
  rw [labels, h]

theorem length_labels (t : Tree α) : t.labels.length = t.size := by
  induction t using Tree.induction with
  | node a ts ih =>
    rw [labels_node, List.length_cons, List.length_flatMap, size, sizeAll_eq]
    rw [List.map_congr_left ih]

theorem label_mem_labels (t : Tree α) : t.label ∈ t.labels := by
  cases t with
  | node a ts =>
    rw [labels_node]
    exact List.mem_cons_self

/-! ## Other labels -/

mutual

/-- The tree of the same shape with the images of the labels. -/
def map (f : α → β) : Tree α → Tree β
  | node a ts => node (f a) (mapAll f ts)

/-- Several trees with the images of the labels. -/
def mapAll (f : α → β) : List (Tree α) → List (Tree β)
  | [] => []
  | t :: ts => t.map f :: mapAll f ts

end

variable (f : α → β)

theorem map_node : (node a ts).map f = node (f a) (ts.map (map f)) := by
  have h : mapAll f ts = ts.map (map f) := by
    induction ts with
    | nil => rfl
    | cons t ts ih => rw [mapAll, ih, List.map_cons]
  rw [map, h]

theorem label_map (t : Tree α) : (t.map f).label = f t.label := by
  cases t with
  | node a ts => rw [map_node, label, label]

theorem size_map (t : Tree α) : (t.map f).size = t.size := by
  induction t using Tree.induction with
  | node a ts ih =>
    rw [map_node, size, size, sizeAll_eq, sizeAll_eq, List.map_map]
    exact congrArg (·.sum + 1) (List.map_congr_left ih)

theorem leafLabels_map (t : Tree α) : (t.map f).leafLabels = t.leafLabels.map f := by
  induction t using Tree.induction with
  | node a ts ih =>
    rw [map_node]
    by_cases hts : ts = []
    · rw [hts, List.map_nil, leafLabels_leaf, leafLabels_leaf, List.map_singleton]
    · rw [leafLabels_node (by simpa using hts), leafLabels_node hts, List.map_flatMap,
        List.flatMap_map]
      exact List.flatMap_congr ih

/-! ## Trees that a function unfolds -/

/-- The children of every node are those that a function gives for its label. -/
inductive Unfolds (next : α → List α) : Tree α → Prop where
  | intro (a : α) (ts : List (Tree α)) (h : next a = ts.map label)
      (below : ∀ t ∈ ts, Unfolds next t) : Unfolds next (node a ts)

variable {next : α → List α}

theorem Unfolds.next_eq (h : (node a ts).Unfolds next) : next a = ts.map label := by
  cases h
  assumption

theorem Unfolds.of_mem {t : Tree α} (h : (node a ts).Unfolds next) (ht : t ∈ ts) :
    t.Unfolds next := by
  cases h with
  | intro _ _ _ below => exact below t ht

theorem Unfolds.eq_nil (h : (node a ts).Unfolds next) (ha : next a = []) : ts = [] := by
  have h := h.next_eq
  rw [ha] at h
  exact List.map_eq_nil_iff.1 h.symm

theorem Unfolds.reachable {t : Tree α} (h : t.Unfolds next) (ha : a ∈ t.labels) :
    Relation.ReflTransGen (fun b a => a ∈ next b) t.label a := by
  induction t using Tree.induction with
  | node b ts ih =>
    rw [labels_node, List.mem_cons, List.mem_flatMap] at ha
    rcases ha with rfl | ⟨t, ht, ha⟩
    · exact .refl
    · refine Relation.ReflTransGen.head ?_ (ih t ht (h.of_mem ht) ha)
      rw [label, h.next_eq]
      exact List.mem_map_of_mem ht

theorem Unfolds.mem_labels {t : Tree α} (h : t.Unfolds next) {b : α} (hb : b ∈ t.labels)
    (ha : a ∈ next b) : a ∈ t.labels := by
  induction t using Tree.induction with
  | node c ts ih =>
    rw [labels_node, List.mem_cons, List.mem_flatMap] at hb ⊢
    rcases hb with rfl | ⟨t, ht, hb⟩
    · rw [h.next_eq] at ha
      obtain ⟨t, ht, rfl⟩ := List.mem_map.1 ha
      exact Or.inr ⟨t, ht, label_mem_labels t⟩
    · exact Or.inr ⟨t, ht, ih t ht (h.of_mem ht) hb⟩

theorem Unfolds.leafLabels_eq {t : Tree α} (h : t.Unfolds next) :
    t.leafLabels = t.labels.filter fun a => (next a).isEmpty := by
  induction t using Tree.induction with
  | node a ts ih =>
    rw [labels_node]
    by_cases hts : ts = []
    · have ha : next a = [] := by rw [h.next_eq, hts, List.map_nil]
      simp [hts, ha]
    · have ha : next a ≠ [] := by rw [h.next_eq]; simpa using hts
      rw [leafLabels_node hts, List.filter_cons_of_neg (by simpa using ha), List.filter_flatMap]
      exact List.flatMap_congr fun t ht => ih t ht (h.of_mem ht)

/-! ## New leaves -/

section Graft

variable [DecidableEq α]

mutual

/-- New leaves in the place of what is below the nodes with the label `i`. -/
def graft (i : α) (new : List α) : Tree α → Tree α
  | node a ts => node a (if a = i then new.map (node · []) else graftAll i new ts)

/-- New leaves in several trees. -/
def graftAll (i : α) (new : List α) : List (Tree α) → List (Tree α)
  | [] => []
  | t :: ts => t.graft i new :: graftAll i new ts

end

variable {i : α} {new : List α}

theorem graft_node : (node a ts).graft i new =
    node a (if a = i then new.map (node · []) else ts.map (graft i new)) := by
  have h : graftAll i new ts = ts.map (graft i new) := by
    induction ts with
    | nil => rfl
    | cons t ts ih => rw [graftAll, ih, List.map_cons]
  rw [graft, h]

theorem label_graft (t : Tree α) : (t.graft i new).label = t.label := by
  cases t with
  | node a ts => rw [graft_node, label, label]

theorem Unfolds.graft {next' : α → List α} {t : Tree α} (h : t.Unfolds next)
    (hi : next' i = new) (hnew : ∀ j ∈ new, next' j = []) (hne : ∀ j, j ≠ i → next' j = next j) :
    (t.graft i new).Unfolds next' := by
  induction t using Tree.induction with
  | node a ts ih =>
    rw [graft_node]
    by_cases ha : a = i
    · rw [if_pos ha, ha]
      refine .intro i _ ?_ fun t ht => ?_
      · rw [hi, List.map_map]
        exact (List.map_id new).symm
      · obtain ⟨j, hj, rfl⟩ := List.mem_map.1 ht
        exact .intro j [] (hnew j hj) (by simp)
    · rw [if_neg ha]
      refine .intro a _ ?_ fun t ht => ?_
      · rw [hne a ha, h.next_eq, List.map_map]
        exact List.map_congr_left fun t _ => (label_graft t).symm
      · obtain ⟨t', ht', rfl⟩ := List.mem_map.1 ht
        exact ih t' ht' (h.of_mem ht')

/-- **Grafting replaces a leaf** by the new leaves. -/
theorem leafLabels_graft {t : Tree α} (h : t.Unfolds next) (hi : next i = []) (hnew : new ≠ []) :
    (t.graft i new).leafLabels = t.leafLabels.flatMap fun j => if j = i then new else [j] := by
  induction t using Tree.induction with
  | node a ts ih =>
    rw [graft_node]
    by_cases ha : a = i
    · obtain rfl := h.eq_nil (ha ▸ hi)
      rw [if_pos ha, leafLabels_node (by simpa using hnew), leafLabels_leaf, List.flatMap_singleton,
        if_pos ha, List.flatMap_map]
      simp
    · rw [if_neg ha]
      by_cases hts : ts = []
      · simp [hts, ha]
      · rw [leafLabels_node (by simpa using hts), leafLabels_node hts, List.flatMap_map,
          List.flatMap_assoc]
        exact List.flatMap_congr fun t ht => ih t ht (h.of_mem ht)

/-- **Grafting adds the new leaves** once for every place of the grafted node. -/
theorem labels_graft {t : Tree α} (h : t.Unfolds next) (hi : next i = []) :
    (t.graft i new).labels.Perm
      (t.labels ++ (t.labels.filter (· = i)).flatMap fun _ => new) := by
  induction t using Tree.induction with
  | node a ts ih =>
    rw [graft_node]
    by_cases ha : a = i
    · obtain rfl := h.eq_nil (ha ▸ hi)
      rw [if_pos ha, labels_node, labels_node, List.flatMap_map]
      simp [ha, labels_node]
    · rw [if_neg ha, labels_node, labels_node, List.flatMap_map, List.cons_append,
        List.filter_cons_of_neg (by simpa using ha), List.filter_flatMap, List.flatMap_assoc]
      refine List.Perm.cons a (List.Perm.trans ?_ (List.flatMap_append_perm ts _ _).symm)
      exact List.Perm.flatMap_left ts fun t ht => ih t ht (h.of_mem ht)

end Graft

end PredictiveParsing.Tree
