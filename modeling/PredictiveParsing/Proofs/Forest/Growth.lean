import Mathlib
import PredictiveParsing.Proofs.Forest.Walk

/-!
# Trees that grow

New nodes under a leaf of a tree take the place of the leaf among the leaves, and nothing else
changes.

* `label_addNodes`, `children_addNodes`: the nodes after an addition;
* `isTree_singleton`, **`IsTree.addNodes`**: a tree stays a tree;
* `Forest.visibleLeaves`: the leaves that are not labelled `ε`; **`IsTree.visibleLeaves_addNodes`**:
  what becomes of them when a production is put below one of them.
-/

namespace PredictiveParsing.Forest

variable {f : Forest} {i j parent : ℕ} {labels : List Char}

/-! ## New nodes -/

theorem children_eq_nil (h : f.size ≤ i) : f.children i = [] := by
  rw [children, Array.getElem?_eq_none h]
  rfl

theorem label_addNode (c : Char) : (f.addNode c (some parent)).label i =
    if i = f.size then c else f.label i := by
  rw [addNode, adopt, label, label, Array.getElem?_modify, Array.getElem?_push]
  by_cases hi : i = f.size
  · have hi' : i = f.nodes.size := hi
    rw [if_pos hi', if_pos hi]
    split <;> rfl
  · have hi' : i ≠ f.nodes.size := hi
    rw [if_neg hi', if_neg hi]
    split
    · rw [Option.map_map]
      rfl
    · rfl

theorem children_addNode (hparent : parent < f.size) (c : Char) :
    (f.addNode c (some parent)).children i =
      if i = parent then f.children i ++ [f.size] else f.children i := by
  rw [addNode, adopt, children, children, Array.getElem?_modify, Array.getElem?_push]
  by_cases hi : i = parent
  · have hlt : i < f.nodes.size := hi ▸ hparent
    rw [if_pos hi.symm, if_pos hi, if_neg hlt.ne, Array.getElem?_eq_getElem hlt]
    rfl
  · rw [if_neg (Ne.symm hi), if_neg hi]
    split
    · next hsize => rw [Array.getElem?_eq_none hsize.ge]; rfl
    · rfl

theorem label_addNodes (labels : List Char) (parent : ℕ) :
    (∀ i < f.size, (f.addNodes labels parent).label i = f.label i) ∧
      (List.range' f.size labels.length).map (f.addNodes labels parent).label = labels := by
  induction labels generalizing f with
  | nil => exact ⟨fun _ _ => rfl, rfl⟩
  | cons c labels ih =>
    obtain ⟨hold, hnew⟩ := ih (f := f.addNode c (some parent))
    rw [size_addNode] at hold hnew
    refine ⟨fun i hi => ?_, ?_⟩
    · change ((f.addNode c (some parent)).addNodes labels parent).label i = f.label i
      rw [hold i (by omega), label_addNode, if_neg hi.ne]
    · rw [List.length_cons, List.range'_succ, List.map_cons]
      refine congrArg₂ List.cons ?_ hnew
      change ((f.addNode c (some parent)).addNodes labels parent).label f.size = c
      rw [hold _ (Nat.lt_succ_self _), label_addNode, if_pos rfl]

theorem children_addNodes (hparent : parent < f.size) (labels : List Char) :
    (f.addNodes labels parent).children i =
      if i = parent then f.children i ++ List.range' f.size labels.length else f.children i := by
  induction labels generalizing f with
  | nil => rw [List.length_nil, List.range'_zero, List.append_nil, ite_self]; rfl
  | cons c labels ih =>
    change ((f.addNode c (some parent)).addNodes labels parent).children i = _
    have hlt : parent < (f.addNode c (some parent)).size := by
      rw [size_addNode]
      omega
    rw [ih hlt, children_addNode hparent, size_addNode, List.length_cons, List.range'_succ]
    by_cases hi : i = parent
    · rw [if_pos hi, if_pos hi, if_pos hi, List.append_assoc, List.singleton_append]
    · rw [if_neg hi, if_neg hi, if_neg hi]

/-! ## Trees stay trees -/

theorem children_singleton (c : Char) : (singleton c).children i = [] := by
  cases i with
  | zero => rfl
  | succ i => exact children_eq_nil (Nat.succ_pos i)

theorem isTree_singleton (c : Char) : (singleton c).IsTree := by
  refine ⟨.node root [], .intro root [] (children_singleton c) (by simp), rfl, ?_⟩
  rw [Tree.labels_node]
  exact List.Perm.refl _

theorem unfolds_addNodes {t : Tree ℕ} (ht : t.Unfolds f.children) (hparent : parent < f.size)
    (hleaf : f.children parent = []) (labels : List Char) :
    (t.graft parent (List.range' f.size labels.length)).Unfolds
      (f.addNodes labels parent).children := by
  refine ht.graft ?_ (fun j hj => ?_) fun j hj => ?_
  · rw [children_addNodes hparent, if_pos rfl, hleaf, List.nil_append]
  · have hj := (List.mem_range'_1.1 hj).1
    rw [children_addNodes hparent, if_neg (by omega), children_eq_nil hj]
  · rw [children_addNodes hparent, if_neg hj]

theorem perm_graft {t : Tree ℕ} (ht : t.Unfolds f.children) (hparent : parent < f.size)
    (hleaf : f.children parent = []) (hperm : t.labels.Perm (List.range f.size))
    (labels : List Char) : (t.graft parent (List.range' f.size labels.length)).labels.Perm
      (List.range (f.addNodes labels parent).size) := by
  have honce : t.labels.filter (· = parent) = [parent] := by
    have hnodup : t.labels.Nodup := hperm.nodup_iff.2 List.nodup_range
    have hmem : parent ∈ t.labels := hperm.mem_iff.2 (List.mem_range.2 hparent)
    rw [List.filter_eq, hnodup.count, if_pos hmem, List.replicate_one]
  refine (Tree.labels_graft ht hleaf).trans ?_
  rw [honce, List.flatMap_singleton, size_addNodes, List.range_eq_range', List.range'_append_1.symm,
    Nat.zero_add, ← List.range_eq_range']
  exact hperm.append_right _

/-- **A tree with new nodes under a leaf is a tree.** -/
theorem IsTree.addNodes (h : f.IsTree) (hparent : parent < f.size)
    (hleaf : f.children parent = []) (labels : List Char) : (f.addNodes labels parent).IsTree := by
  obtain ⟨t, ht, hroot, hperm⟩ := h
  refine ⟨_, unfolds_addNodes ht hparent hleaf labels, ?_, perm_graft ht hparent hleaf hperm labels⟩
  rw [Tree.label_graft, hroot]

theorem IsTree.leaves_addNodes (h : f.IsTree) (hparent : parent < f.size)
    (hleaf : f.children parent = []) (hlabels : labels ≠ []) :
    (f.addNodes labels parent).leaves = f.leaves.flatMap fun j =>
      if j = parent then List.range' f.size labels.length else [j] := by
  obtain ⟨t, ht, hroot, hperm⟩ := h
  have hsize := size_eq_of_perm (perm_graft ht hparent hleaf hperm labels)
  rw [leaves_eq (unfolds_addNodes ht hparent hleaf labels) ((Tree.label_graft t).trans hroot)
    hsize.le, leaves_eq ht hroot (size_eq_of_perm hperm).le]
  refine Tree.leafLabels_graft ht hleaf fun hrange => hlabels ?_
  rw [List.range'_eq_nil_iff] at hrange
  exact List.length_eq_zero_iff.1 hrange

/-! ## Leaves that are shown -/

/-- The leaves that are not labelled `ε`, from left to right. -/
def visibleLeaves (f : Forest) : List ℕ := f.leaves.filter fun i => f.label i ≠ epsilon

theorem frontier_eq : f.frontier = f.visibleLeaves.map f.label := by
  rw [frontier, leafLabels, List.filter_map, visibleLeaves]
  rfl

theorem visibleLeaves_singleton {c : Char} (hc : c ≠ epsilon) :
    (singleton c).visibleLeaves = [root] := by
  have hleaves : (singleton c).leaves = [root] := by rfl
  rw [visibleLeaves, hleaves, List.filter_eq_self]
  intro i hi
  rw [List.mem_singleton.1 hi]
  exact decide_eq_true hc

theorem IsTree.mem_visibleLeaves (h : f.IsTree) :
    i ∈ f.visibleLeaves ↔ i < f.size ∧ f.children i = [] ∧ f.label i ≠ epsilon := by
  rw [visibleLeaves, List.mem_filter, h.mem_leaves, and_assoc, decide_eq_true_eq]

theorem IsTree.nodup_visibleLeaves (h : f.IsTree) : f.visibleLeaves.Nodup :=
  h.nodup_leaves.filter _

theorem flatMap_replace {α : Type} [DecidableEq α] {p : α → Bool} {a : α} (ha : p a)
    (new as : List α) : (as.flatMap fun b => if b = a then new else [b].filter p) =
      (as.filter p).flatMap fun b => if b = a then new else [b] := by
  induction as with
  | nil => rfl
  | cons b as ih =>
    rw [List.flatMap_cons, ih]
    by_cases hb : b = a
    · rw [if_pos hb, List.filter_cons_of_pos (hb ▸ ha), List.flatMap_cons, if_pos hb]
    · rw [if_neg hb]
      by_cases hp : p b
      · rw [List.filter_cons_of_pos hp, List.filter_cons_of_pos hp, List.flatMap_cons, if_neg hb]
        rfl
      · rw [List.filter_cons_of_neg hp, List.filter_cons_of_neg hp]
        rfl

theorem flatMap_replace_eq {α : Type} [DecidableEq α] {a : α} {new us vs : List α}
    (h : (us ++ a :: vs).Nodup) :
    ((us ++ a :: vs).flatMap fun b => if b = a then new else [b]) = us ++ new ++ vs := by
  have hfix : ∀ as : List α, a ∉ as → (as.flatMap fun b => if b = a then new else [b]) = as := by
    intro as has
    rw [List.flatMap_congr fun b hb => if_neg (ne_of_mem_of_not_mem hb has),
      List.flatMap_singleton']
  have hnotMem := List.nodup_middle.1 h
  rw [List.nodup_cons, List.mem_append, not_or] at hnotMem
  rw [List.flatMap_append, List.flatMap_cons, if_pos rfl, hfix us hnotMem.1.1, hfix vs hnotMem.1.2,
    List.append_assoc]

/-- What stands below a node for a production: its symbols, or `ε` if there are none. -/
def shown (right : Text) : Text := if right = [] then [epsilon] else right

theorem shown_ne_nil (right : Text) : shown right ≠ [] := by
  unfold shown
  split
  · exact List.cons_ne_nil _ _
  · assumption

theorem filter_shown {right : Text} (hright : epsilon ∉ right) (f : Forest) (parent : ℕ) :
    ((List.range' f.size (shown right).length).filter fun i =>
      (f.addNodes (shown right) parent).label i ≠ epsilon) = List.range' f.size right.length := by
  have hnew := (label_addNodes (f := f) (shown right) parent).2
  by_cases h : right = []
  · rw [h] at hnew ⊢
    have hlabel := (List.cons.inj hnew).1
    change List.filter _ [f.size] = []
    rw [List.filter_cons_of_neg (by simpa using hlabel), List.filter_nil]
  · have hshown : shown right = right := if_neg h
    rw [hshown] at hnew ⊢
    refine List.filter_eq_self.2 fun i hi => ?_
    have hmem : (f.addNodes right parent).label i ∈ right := by
      have := List.mem_map_of_mem (f := (f.addNodes right parent).label) hi
      rwa [hnew] at this
    exact decide_eq_true (ne_of_mem_of_not_mem hmem hright)

/-- **A production below a leaf** takes the place of the leaf. -/
theorem IsTree.visibleLeaves_addNodes (h : f.IsTree) {us vs : List ℕ}
    (hleaves : f.visibleLeaves = us ++ parent :: vs) {right : Text} (hright : epsilon ∉ right) :
    (f.addNodes (shown right) parent).visibleLeaves =
      us ++ List.range' f.size right.length ++ vs := by
  have hmem : parent ∈ f.visibleLeaves := by
    rw [hleaves]
    exact List.mem_append_right _ List.mem_cons_self
  obtain ⟨hparent, hleaf, hlabel⟩ := h.mem_visibleLeaves.1 hmem
  have hnodup := h.nodup_visibleLeaves
  rw [hleaves] at hnodup
  rw [visibleLeaves, h.leaves_addNodes hparent hleaf (shown_ne_nil right), List.filter_flatMap,
    ← flatMap_replace_eq hnodup, ← hleaves, visibleLeaves,
    ← flatMap_replace (by simpa using hlabel)]
  refine List.flatMap_congr fun j hj => ?_
  by_cases hji : j = parent
  · rw [if_pos hji, if_pos hji, filter_shown hright]
  · have hj := (h.mem_leaves.1 hj).1
    rw [if_neg hji, if_neg hji]
    refine List.filter_congr fun k hk => ?_
    rw [List.mem_singleton.1 hk, (label_addNodes _ parent).1 j hj]

end PredictiveParsing.Forest
