import Mathlib
import PredictiveParsing.Proofs.Forest.Texts
import PredictiveParsing.Proofs.Json.Reading

/-!
# The JSON text of a tree

The text that is written for a forest, on the walk around the tree below its root, is a JSON text.
It is read back as an object with the label and the children of each node, so that it shows the
whole tree, whatever characters the labels are.

* `Tree.json_node`, **`Tree.json_injective`**: a tree is known by its value;
* `IsBuilt.json_eq`, `IsTree.json_eq`: the text of a forest is that of the value of its tree;
* **`read?_json_of_isBuilt`**: what the text of a forest is read as.
-/

namespace PredictiveParsing

namespace Tree

theorem json_node (a : Char) (ts : List (Tree Char)) : (node a ts).json =
    .object [("label".toList, .string [a]), ("children".toList, .array (ts.map json))] := by
  rw [json, jsonAll_eq]

/-- **A tree is known by its value.** -/
theorem json_injective : Function.Injective json := by
  intro t u h
  induction t using Tree.induction generalizing u with
  | node a ts ih =>
    obtain ⟨b, us⟩ := u
    rw [json_node, json_node] at h
    simp only [Json.object.injEq, List.cons.injEq, Prod.mk.injEq, Json.string.injEq,
      Json.array.injEq, and_true, true_and] at h
    obtain ⟨rfl, hchildren⟩ := h
    -- The children agree one by one.
    have hts : ∀ us : List (Tree Char), ts.map json = us.map json → ts = us := by
      clear hchildren
      induction ts with
      | nil => exact fun us hus => (List.map_eq_nil_iff.1 hus.symm).symm
      | cons t ts ihts =>
        intro us hus
        obtain ⟨u, us, rfl, hu, hus⟩ := List.map_eq_cons_iff.1 hus.symm
        rw [ih t List.mem_cons_self hu.symm,
          ihts (fun t ht => ih t (List.mem_cons_of_mem _ ht)) us hus.symm]
    rw [hts us hchildren]

end Tree

namespace Forest

open PredictiveParsing.Tree

variable {f f' : Forest}

theorem IsBuilt.exists_unfolds (h : f.IsBuilt) :
    ∃ t : Tree ℕ, t.label = root ∧ t.Unfolds f.children ∧ t.size ≤ f.size := by
  have hlinked := h.linked
  obtain ⟨t, hroot, ht⟩ := hlinked.exists_unfolds (i := root) h.size_pos
  exact ⟨t, hroot, ht, hlinked.size_tree_le ht (hroot ▸ h.size_pos)⟩

/-- **The walk writes the value of the tree.** -/
theorem json_eq {t : Tree ℕ} (ht : t.Unfolds f.children) (hroot : t.label = root)
    (hsize : t.size ≤ f.size) : f.json = f.tree.json.render := by
  rw [json, visits, visits_of_le ht hroot (by omega), json_of_around ht, tree_eq ht hroot hsize]

theorem IsBuilt.json_eq (h : f.IsBuilt) : f.json = f.tree.json.render := by
  obtain ⟨t, hroot, ht, hsize⟩ := h.exists_unfolds
  exact Forest.json_eq ht hroot hsize

theorem IsTree.json_eq (h : f.IsTree) : f.json = f.tree.json.render := by
  obtain ⟨t, ht, hroot, hperm⟩ := h
  exact Forest.json_eq ht hroot (size_eq_of_perm hperm).le

/-- **The JSON text of a forest**, however it has been built, is read as an object with the label
and the children of each node of the tree below the root. Two texts are the same iff the trees have
the same shape and the same labels. -/
theorem read?_json_of_isBuilt (h : f.IsBuilt) :
    (∃ t : Tree ℕ, t.label = root ∧ t.Unfolds f.children ∧ f.tree = t.map f.label) ∧
    Json.read? f.json = some f.tree.json ∧
    ∀ f' : Forest, f'.IsBuilt → (f.json = f'.json ↔ f.tree = f'.tree) := by
  have hread : ∀ {f : Forest}, f.IsBuilt → Json.read? f.json = some f.tree.json := by
    intro f h
    rw [h.json_eq, Json.read?_render]
  refine ⟨?_, hread h, fun f' h' => ⟨fun heq => ?_, fun heq => ?_⟩⟩
  · obtain ⟨t, hroot, ht, hsize⟩ := h.exists_unfolds
    exact ⟨t, hroot, ht, tree_eq ht hroot hsize⟩
  · have hvalue := hread h
    rw [heq, hread h', Option.some.injEq] at hvalue
    exact (json_injective hvalue).symm
  · rw [h.json_eq, h'.json_eq, heq]

/-- Labels that have a meaning in JSON: a quotation mark above a backslash and a comma, and a
control character below the backslash. -/
def punctuated : Forest :=
  (((singleton '"').addNode '\\' (some 0)).addNode ',' (some 0)).addNode '\x01' (some 1)

/-- The labels are read as such, and the text is not that of another tree. -/
theorem read?_json_of_isBuilt_punctuated : punctuated.IsBuilt ∧
    Json.read? punctuated.json =
      some (node '"' [node '\\' [node '\x01' []], node ',' []]).json ∧
    rearranged.IsBuilt ∧ punctuated.json ≠ rearranged.json := by
  have hbuilt : punctuated.IsBuilt :=
    .addNode (.addNode (.addNode (.singleton _) _ _ (by decide)) _ _ (by decide)) _ _ (by decide)
  obtain ⟨-, hread, hiff⟩ := read?_json_of_isBuilt hbuilt
  refine ⟨hbuilt, hread, isBuilt_rearranged, fun heq => ?_⟩
  have hlabel := congrArg Tree.label ((hiff rearranged isBuilt_rearranged).1 heq)
  exact absurd hlabel (by decide)

end Forest

end PredictiveParsing
