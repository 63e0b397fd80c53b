import Mathlib
import PredictiveParsing.Proofs.Forest.Unfolding

/-!
# Walks and recursion agree

A walk with a stack writes what the recursion over the tree below the root writes, for every forest
that can be built. The walk around a tree is itself a preorder walk, of a tree of visits: between
entering a node and leaving it stand the walks around its children, with a step between any two.

* `Tree.around`: the tree of visits; `unfolds_around`, `size_around`;
* **`flatMap_labels_around`**: what a walk writes, node by node;
* `text_of_around`, `json_of_around`, `bracketed_of_around`: the three texts written on such a walk;
* `Tree.leveled`: the tree of nodes with their depths, for the indented text;
* **`walks_of_isBuilt`**: the walks of every forest that can be built.
-/

namespace PredictiveParsing

section Intersperse

variable {α β : Type} {a s : α}

theorem map_intersperse (f : α → β) (s : α) (as : List α) :
    (as.intersperse s).map f = (as.map f).intersperse (f s) := by
  induction as with
  | nil => rfl
  | cons a as ih =>
    cases as with
    | nil => rfl
    | cons b as => simpa using ih

theorem mem_of_mem_intersperse {as : List α} (h : a ∈ as.intersperse s) : a = s ∨ a ∈ as := by
  induction as with
  | nil => exact absurd h List.not_mem_nil
  | cons b as ih =>
    cases as with
    | nil => exact Or.inr h
    | cons c as =>
      rw [List.intersperse_cons_cons, List.mem_cons, List.mem_cons] at h
      rcases h with rfl | rfl | h
      · exact Or.inr List.mem_cons_self
      · exact Or.inl rfl
      · exact (ih h).imp_right (List.mem_cons_of_mem _)

theorem intercalate_nil_eq_flatten (as : List (List α)) :
    ([] : List α).intercalate as = as.flatten := by
  induction as with
  | nil => rfl
  | cons a as ih =>
    cases as with
    | nil => simp
    | cons b as => rw [List.intercalate_cons_cons, ih, List.append_nil, ← List.flatten_cons]

theorem flatMap_intersperse (f : α → List β) (s : α) (as : List α) :
    (as.intersperse s).flatMap f = (f s).intercalate (as.map f) := by
  rw [List.flatMap, map_intersperse, List.intercalate]

end Intersperse

namespace Visit

/-- The node that a visit enters, if it does. -/
def entered : Visit → List ℕ
  | enter i => [i]
  | _ => []

/-- The node that a visit leaves, if it does. -/
def left : Visit → List ℕ
  | leave i => [i]
  | _ => []

end Visit

namespace Tree

variable {f : Forest} {i depth : ℕ} {t : Tree ℕ} {ts : List (Tree ℕ)}

/-! ## The tree of visits -/

mutual

/-- The visits on the walk around a tree: the node is entered, its children are visited, with a step
between any two, and the node is left. -/
def around : Tree ℕ → Tree Visit
  | node i ts =>
    node (.enter i) ((aroundAll ts).intersperse (node .between []) ++ [node (.leave i) []])

/-- The visits on the walks around several trees. -/
def aroundAll : List (Tree ℕ) → List (Tree Visit)
  | [] => []
  | t :: ts => t.around :: aroundAll ts

end

theorem around_node : (node i ts).around = node (.enter i)
    ((ts.map around).intersperse (node .between []) ++ [node (.leave i) []]) := by
  have h : aroundAll ts = ts.map around := by
    induction ts with
    | nil => rfl
    | cons t ts ih => rw [aroundAll, ih, List.map_cons]
  rw [around, h]

theorem label_around (t : Tree ℕ) : t.around.label = .enter t.label := by
  cases t with
  | node i ts => rw [around_node, label, label]

theorem unfolds_around (h : t.Unfolds f.children) : t.around.Unfolds f.visitsAfter := by
  have hleaf : ∀ v : Visit, f.visitsAfter v = [] → (node v []).Unfolds f.visitsAfter :=
    fun v hv => .intro v [] hv (by simp)
  induction t using Tree.induction with
  | node i ts ih =>
    rw [around_node]
    refine .intro _ _ ?_ fun u hu => ?_
    · have hlabels : (ts.map label).map Visit.enter = (ts.map around).map label := by
        rw [List.map_map, List.map_map]
        exact List.map_congr_left fun t _ => (label_around t).symm
      rw [Forest.visitsAfter, h.next_eq, hlabels, List.map_append, map_intersperse]
      rfl
    · rcases List.mem_append.1 hu with hu | hu
      · rcases mem_of_mem_intersperse hu with rfl | hu
        · exact hleaf .between rfl
        · obtain ⟨t, ht, rfl⟩ := List.mem_map.1 hu
          exact ih t ht (h.of_mem ht)
      · rw [List.mem_singleton.1 hu]
        exact hleaf (.leave i) rfl

theorem sizeAll_append (ts us : List (Tree Visit)) :
    sizeAll (ts ++ us) = sizeAll ts + sizeAll us := by
  rw [sizeAll_eq, sizeAll_eq, sizeAll_eq, List.map_append, List.sum_append]

theorem sizeAll_intersperse (h : ∀ t ∈ ts, t.around.size + 1 ≤ 3 * t.size) :
    sizeAll ((ts.map around).intersperse (node .between [])) ≤ 3 * sizeAll ts - 1 := by
  induction ts with
  | nil => exact Nat.le_refl 0
  | cons t ts ih =>
    have ht := h t List.mem_cons_self
    have hts := ih fun u hu => h u (List.mem_cons_of_mem _ hu)
    cases ts with
    | nil =>
      simp only [List.map_cons, List.map_nil, List.intersperse_singleton, sizeAll]
      omega
    | cons u us =>
      have hu := u.size_pos
      simp only [List.map_cons, List.intersperse_cons_cons, sizeAll, size] at hts ⊢
      omega

theorem size_around (t : Tree ℕ) : t.around.size + 1 ≤ 3 * t.size := by
  induction t using Tree.induction with
  | node i ts ih =>
    have hts := sizeAll_intersperse ih
    rw [around_node, size, size, sizeAll_append]
    simp only [sizeAll, size]
    omega

/-- **What a walk writes**: something on entering a node, then what it writes on the children, with
what it writes between any two, and something on leaving the node. -/
theorem flatMap_labels_around {α : Type} (write : Visit → List α) (i : ℕ) (ts : List (Tree ℕ)) :
    (node i ts).around.labels.flatMap write = write (.enter i) ++
      (write .between).intercalate (ts.map fun t => t.around.labels.flatMap write) ++
        write (.leave i) := by
  have hleaf : ∀ v : Visit, (node v []).labels.flatMap write = write v := by
    intro v
    rw [labels_node, List.flatMap_nil, List.flatMap_singleton]
  rw [around_node, labels_node, List.flatMap_cons, List.flatMap_assoc, List.flatMap_append,
    flatMap_intersperse, List.flatMap_singleton, hleaf, hleaf, List.map_map, List.append_assoc]
  rfl

/-! ## Nodes on the walk -/

theorem entered_of_around (t : Tree ℕ) : t.around.labels.flatMap Visit.entered = t.labels := by
  induction t using Tree.induction with
  | node i ts ih =>
    rw [flatMap_labels_around, labels_node, List.map_congr_left ih]
    simp [Visit.entered, intercalate_nil_eq_flatten, List.flatMap]

theorem left_of_around (t : Tree ℕ) : (t.around.labels.flatMap Visit.left).Perm t.labels := by
  induction t using Tree.induction with
  | node i ts ih =>
    have hbelow : (ts.flatMap fun t => t.around.labels.flatMap Visit.left).Perm
        (ts.flatMap labels) := List.Perm.flatMap_left ts ih
    rw [flatMap_labels_around, labels_node]
    simpa [Visit.left, intercalate_nil_eq_flatten, List.flatMap] using
      (List.perm_append_singleton i _).trans (hbelow.cons i)

/-! ## Texts on the walk -/

theorem textAll_eq (ts : List (Tree Char)) : textAll ts = ts.map text := by
  induction ts with
  | nil => rfl
  | cons t ts ih => rw [textAll, ih, List.map_cons]

theorem text_node (a : Char) (ts : List (Tree Char)) : (node a ts).text =
    (a :: if ts.isEmpty then [] else ['(']) ++ [',', ' '].intercalate (ts.map text) ++
      if ts.isEmpty then [] else [')'] := by
  cases ts with
  | nil => rw [text]; rfl
  | cons t ts => rw [text, textAll_eq]; rfl

theorem jsonAll_eq (ts : List (Tree Char)) : jsonAll ts = ts.map json := by
  induction ts with
  | nil => rfl
  | cons t ts ih => rw [jsonAll, ih, List.map_cons]

theorem render_json_node (a : Char) (ts : List (Tree Char)) : (node a ts).json.render =
    "\x7b\"label\":".toList ++ Json.quote [a] ++ ",\"children\":[".toList ++
      [','].intercalate (ts.map fun t => t.json.render) ++ [']', '}'] := by
  have hlabel : Json.quote "label".toList = "\"label\"".toList := by decide
  have hchildren : Json.quote "children".toList = "\"children\"".toList := by decide
  rw [json, jsonAll_eq, Json.render, Json.renderFields, Json.renderFields, Json.renderFields,
    Json.render, Json.render, Json.renderItems_eq, List.map_map, hlabel, hchildren]
  simp [List.intercalate, Function.comp_def]

theorem bracketedAll_eq (ts : List (Tree Char)) : bracketedAll ts = ts.map bracketed := by
  induction ts with
  | nil => rfl
  | cons t ts ih => rw [bracketedAll, ih, List.map_cons]

theorem bracketed_node (a : Char) (ts : List (Tree Char)) : (node a ts).bracketed =
    (if ts.isEmpty then Forest.latexLabel a
      else "[.".toList ++ Forest.latexLabel a ++ [' ']) ++
      [' '].intercalate (ts.map bracketed) ++ if ts.isEmpty then [] else [' ', ']'] := by
  cases ts with
  | nil => rw [bracketed]; simp
  | cons t ts => rw [bracketed, bracketedAll_eq]; simp

theorem isLeaf_label (t : Tree ℕ) (h : t.Unfolds f.children) :
    f.isLeaf t.label = t.children.isEmpty := by
  cases t with
  | node i ts => rw [Forest.isLeaf, label, h.next_eq, List.isEmpty_map, children]

section

variable (h : t.Unfolds f.children)
include h

theorem text_of_around : t.around.labels.flatMap f.textAt = (t.map f.label).text := by
  induction t using Tree.induction with
  | node i ts ih =>
    have hts := List.map_congr_left fun t ht => ih t ht (h.of_mem ht)
    have hleaf : f.isLeaf i = ts.isEmpty := isLeaf_label _ h
    rw [flatMap_labels_around, map_node, text_node, hts, List.map_map, List.isEmpty_map]
    simp only [Forest.textAt, hleaf]
    rfl

theorem json_of_around : t.around.labels.flatMap f.jsonAt = (t.map f.label).json.render := by
  induction t using Tree.induction with
  | node i ts ih =>
    have hts := List.map_congr_left fun t ht => ih t ht (h.of_mem ht)
    rw [flatMap_labels_around, map_node, render_json_node, hts, List.map_map]
    rfl

theorem bracketed_of_around : t.around.labels.flatMap f.latexAt = (t.map f.label).bracketed := by
  induction t using Tree.induction with
  | node i ts ih =>
    have hts := List.map_congr_left fun t ht => ih t ht (h.of_mem ht)
    have hleaf : f.isLeaf i = ts.isEmpty := isLeaf_label _ h
    rw [flatMap_labels_around, map_node, bracketed_node, hts, List.map_map, List.isEmpty_map]
    simp only [Forest.latexAt, hleaf]
    rfl

end

/-! ## Depths -/

mutual

/-- The tree of the nodes with their depths, if the root has the given depth. -/
def leveled (depth : ℕ) : Tree ℕ → Tree (ℕ × ℕ)
  | node i ts => node (i, depth) (leveledAll (depth + 1) ts)

/-- The trees of the nodes with their depths, if the roots have the given depth. -/
def leveledAll (depth : ℕ) : List (Tree ℕ) → List (Tree (ℕ × ℕ))
  | [] => []
  | t :: ts => t.leveled depth :: leveledAll depth ts

end

theorem leveled_node :
    (node i ts).leveled depth = node (i, depth) (ts.map (leveled (depth + 1))) := by
  have h : ∀ depth, leveledAll depth ts = ts.map (leveled depth) := by
    intro depth
    induction ts with
    | nil => rfl
    | cons t ts ih => rw [leveledAll, ih, List.map_cons]
  rw [leveled, h]

theorem label_leveled (depth : ℕ) (t : Tree ℕ) : (t.leveled depth).label = (t.label, depth) := by
  cases t with
  | node i ts => rw [leveled_node, label, label]

theorem unfolds_leveled (h : t.Unfolds f.children) (depth : ℕ) :
    (t.leveled depth).Unfolds fun (i, depth) => (f.children i).map fun c => (c, depth + 1) := by
  induction t using Tree.induction generalizing depth with
  | node i ts ih =>
    rw [leveled_node]
    refine .intro _ _ ?_ fun u hu => ?_
    · change (f.children i).map (fun c => (c, depth + 1)) = _
      rw [h.next_eq, List.map_map, List.map_map]
      exact List.map_congr_left fun t _ => (label_leveled _ t).symm
    · obtain ⟨t, ht, rfl⟩ := List.mem_map.1 hu
      exact ih t ht (h.of_mem ht) _

theorem size_leveled (depth : ℕ) (t : Tree ℕ) : (t.leveled depth).size = t.size := by
  induction t using Tree.induction generalizing depth with
  | node i ts ih =>
    rw [leveled_node, size, size, sizeAll_eq, sizeAll_eq, List.map_map]
    exact congrArg (·.sum + 1) (List.map_congr_left fun t ht => ih t ht _)

theorem outlineAll_eq (depth : ℕ) (ts : List (Tree Char)) :
    outlineAll depth ts = ts.flatMap (outline depth) := by
  induction ts with
  | nil => rfl
  | cons t ts ih => rw [outlineAll, ih, List.flatMap_cons]

theorem outline_of_leveled (f : Forest) (depth : ℕ) (t : Tree ℕ) :
    (t.leveled depth).labels.map (fun v => (v.2, f.label v.1)) =
      (t.map f.label).outline depth := by
  induction t using Tree.induction generalizing depth with
  | node i ts ih =>
    rw [leveled_node, labels_node, map_node, outline, outlineAll_eq, List.map_cons,
      List.map_flatMap, List.flatMap_map, List.flatMap_map]
    exact congrArg _ (List.flatMap_congr fun t ht => ih t ht _)

end Tree

/-! ## The walks of a forest -/

namespace Forest

open PredictiveParsing.Tree

variable {f : Forest} {t : Tree ℕ} {limit : ℕ}

theorem preorder_eq_of_unfolds {α : Type} {next : α → List α} {t : Tree α} {a : α}
    (h : t.Unfolds next) (ha : t.label = a) (hlimit : t.size ≤ limit) :
    preorder next limit [a] [] = t.labels := by
  obtain ⟨more, rfl⟩ := Nat.exists_eq_add_of_le hlimit
  rw [← ha, preorder_of_unfolds h, preorder_nil, List.append_nil, List.reverse_reverse]

theorem outline_of_le (h : t.Unfolds f.children) (hroot : t.label = root)
    (hlimit : t.size ≤ limit) :
    preorder (fun (i, depth) => (f.children i).map fun c => (c, depth + 1)) limit [(root, 0)] [] =
      (t.leveled 0).labels := by
  refine preorder_eq_of_unfolds (unfolds_leveled h 0) ?_ ?_
  · rw [label_leveled, hroot]
  · rwa [size_leveled]

theorem visits_of_le (h : t.Unfolds f.children) (hroot : t.label = root)
    (hlimit : 3 * t.size ≤ limit) :
    preorder f.visitsAfter limit [.enter root] [] = t.around.labels := by
  have hsize := size_around t
  refine preorder_eq_of_unfolds (unfolds_around h) ?_ (by omega)
  rw [label_around, hroot]

/-- **The walks of a forest**, however it has been built, come to their end, and agree with the
recursion over the tree `t` below the root. A larger limit does not change them. The nodes that are
reached from the root, and no others, are each passed once, entered once and left once; and what the
walks write are the leaves and the four texts of the tree. -/
theorem walks_of_isBuilt (h : f.IsBuilt) :
    ∃ t : Tree ℕ, t.label = root ∧ t.Unfolds f.children ∧ f.tree = t.map f.label ∧
      (∀ limit, f.size ≤ limit →
        preorder (fun (i, depth) => (f.children i).map fun c => (c, depth + 1)) limit
            [(root, 0)] [] = f.outline ∧
          preorder f.visitsAfter (3 * limit) [.enter root] [] = f.visits ∧
          (preorder f.children limit [root] []).filter f.isLeaf = f.leaves) ∧
      ((f.outline.map (·.1)).Nodup ∧
        (∀ i, i ∈ f.outline.map (·.1) ↔
          Relation.ReflTransGen (fun j i => i ∈ f.children j) root i) ∧
        f.visits.flatMap Visit.entered = f.outline.map (·.1) ∧
        (f.visits.flatMap Visit.left).Perm (f.outline.map (·.1))) ∧
      f.leaves = t.leafLabels ∧ f.text = f.tree.text ∧ f.plain = f.tree.plain ∧
      f.json = f.tree.json.render ∧ f.latex = f.tree.latex := by
  have hlinked := h.linked
  obtain ⟨t, hroot, ht⟩ := hlinked.exists_unfolds (i := root) h.size_pos
  have hlt : t.label < f.size := by
    rw [hroot]
    exact h.size_pos
  have hsize := hlinked.size_tree_le ht hlt
  have htree := tree_eq ht hroot hsize
  have houtline : f.outline = (t.leveled 0).labels := outline_of_le ht hroot hsize
  have hvisits : f.visits = t.around.labels := visits_of_le ht hroot (by omega)
  have hnodes := map_fst_outline ht hroot hsize
  refine ⟨t, hroot, ht, htree, fun limit hlimit => ⟨?_, ?_, ?_⟩, ⟨?_, fun i => ?_, ?_, ?_⟩,
    leaves_eq ht hroot hsize, ?_, ?_, ?_, ?_⟩
  · rw [houtline, outline_of_le ht hroot (hsize.trans hlimit)]
  · rw [hvisits, visits_of_le ht hroot (by omega)]
  · rw [leaves, hnodes, preorder_eq_of_unfolds ht hroot (hsize.trans hlimit)]
  · rw [hnodes]
    exact hlinked.nodup_labels ht hlt
  · rw [hnodes, ← hroot]
    exact mem_labels_iff_reachable ht
  · rw [hvisits, hnodes, entered_of_around]
  · rw [hvisits, hnodes]
    exact left_of_around t
  · rw [text, hvisits, text_of_around ht, htree]
  · rw [plain, Tree.plain, htree, ← outline_of_leveled, houtline, List.map_map]
    rfl
  · rw [json, hvisits, json_of_around ht, htree]
  · have hbracketed := bracketed_of_around ht
    rw [← hvisits, ← htree] at hbracketed
    exact congrArg ("\\Tree ".toList ++ ·) hbracketed

/-- The node `C`, below which the root has been moved, is not on the walk from the root. -/
theorem walks_of_isBuilt_rearranged : rearranged.IsBuilt ∧
    ¬ Relation.ReflTransGen (fun j i => i ∈ rearranged.children j) root 2 ∧
    rearranged.tree.text = "A(B, D)".toList ∧ rearranged.tree.plain = "A\n  B\n  D".toList ∧
    rearranged.tree.latex = "\\Tree [.A B D ]".toList := by
  obtain ⟨t, -, -, -, -, ⟨-, hreach, -⟩, -, htext, hplain, -, hlatex⟩ :=
    walks_of_isBuilt isBuilt_rearranged
  refine ⟨isBuilt_rearranged, fun h => ?_, ?_, ?_, ?_⟩
  · exact absurd ((hreach 2).2 h) (by decide)
  · rw [← htext]
    decide
  · rw [← hplain]
    decide
  · rw [← hlatex]
    decide

end Forest

end PredictiveParsing
