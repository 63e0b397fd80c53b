import Mathlib
import PredictiveParsing.Proofs.Forest.Links

/-!
# Attaching a node

A node is attached to a new parent unless it is there already, or the new parent hangs below it.
Then it comes last below its new parent, with everything that hangs below it, and nothing else
changes.

* `Forest.descendants`: a node and the nodes below it;
* `Forest.IsMoved`: what moving a node does, and what it leaves alone; `Linked.isMoved`;
* `Linked.attach_refused_iff`: when attaching is refused;
* **`IsMoved.isAncestor_iff`**: the ancestors of a node after a move; `IsMoved.descendants_below`,
  `descendants_above`, `descendants_beside`: the nodes below it;
* **`attach_of_isBuilt`**: when attaching is refused, and what it does otherwise.
-/

namespace PredictiveParsing.Forest

variable {f f' : Forest} {i j parent child : ℕ}

/-- A node and the nodes below it. -/
def descendants (f : Forest) (i : ℕ) : Set ℕ := {j | f.IsAncestor i j}

theorem mem_descendants : j ∈ f.descendants i ↔ f.IsAncestor i j := Iff.rfl

/-! ## Effect and frame -/

/-- The node `child` has been moved below `parent`: it is the last child there, its former parent
has kept its other children in their order, and all else is as it was. -/
structure IsMoved (f : Forest) (parent child : ℕ) (f' : Forest) : Prop where
  size_eq : f'.size = f.size
  label_eq : ∀ i, f'.label i = f.label i
  parent?_child : f'.parent? child = some parent
  parent?_eq : ∀ i, i ≠ child → f'.parent? i = f.parent? i
  children_parent : f'.children parent = f.children parent ++ [child]
  children_former : ∀ former, f.parent? child = some former →
    f'.children former = (f.children former).erase child
  children_eq : ∀ i, i ≠ parent → f.parent? child ≠ some i → f'.children i = f.children i

theorem label_modify (change : Node → Node) (k : ℕ) (h : ∀ n, (change n).label = n.label) :
    (⟨f.nodes.modify k change⟩ : Forest).label i = f.label i := by
  rw [label, label, Array.getElem?_modify]
  split
  · rw [Option.map_map]
    exact congrArg (Option.getD · epsilon) (Option.map_congr fun n _ => h n)
  · rfl

theorem label_move (parent child i : ℕ) : (f.move parent child).label i = f.label i := by
  have hadopt : ∀ g : Forest, (g.adopt parent child).label i = g.label i := fun g =>
    label_modify _ parent fun _ => rfl
  have hdisown : ∀ former, (f.disown former child).label i = f.label i := fun former =>
    label_modify _ former fun _ => rfl
  have hset : ∀ g : Forest, (g.setParent child parent).label i = g.label i := fun g =>
    label_modify _ child fun _ => rfl
  rw [move]
  split
  · rw [hset, hadopt, hdisown]
  · rw [hset, hadopt]

namespace Linked

variable (h : f.Linked)
include h

theorem children_move_eq_erase (hparent : parent < f.size) (child i : ℕ) :
    (f.move parent child).children i =
      (f.children i).erase child ++ if i = parent then [child] else [] := by
  rw [h.children_move hparent, (h.nodup_children i).erase_eq_filter]
  refine congrArg (· ++ _) (List.filter_congr fun c _ => ?_)
  by_cases hc : c = child <;> simp [hc]

theorem isMoved (hparent : parent < f.size) (hchild : child < f.size)
    (hnew : f.parent? child ≠ some parent) : f.IsMoved parent child (f.move parent child) := by
  have hkeep : ∀ i, f.parent? child ≠ some i → (f.children i).erase child = f.children i :=
    fun i hi => List.erase_of_not_mem fun hmem => hi ((h.mem_children_iff _ _).1 hmem)
  refine ⟨size_move f parent child, label_move parent child, ?_, fun i hi => ?_, ?_,
    fun former hformer => ?_, fun i hi hformer => ?_⟩
  · rw [parent?_move hchild, if_pos rfl]
  · rw [parent?_move hchild, if_neg hi]
  · rw [h.children_move_eq_erase hparent, if_pos rfl, hkeep parent hnew]
  · have hne : former ≠ parent := by
      rintro rfl
      exact hnew hformer
    rw [h.children_move_eq_erase hparent, if_neg hne, List.append_nil]
  · rw [h.children_move_eq_erase hparent, if_neg hi, List.append_nil, hkeep i hformer]

/-- **Attaching is refused** if the node is a child already, or the new parent hangs below it. -/
theorem attach_refused_iff (hparent : parent < f.size) :
    (f.attach parent child).1 = false ↔
      f.parent? child = some parent ∨ f.IsAncestor child parent := by
  rw [← h.mem_children_iff, ← h.mem_lineage_iff hparent, Forest.attach]
  split
  · next hrefused => exact iff_of_true rfl hrefused
  · next hfree => exact iff_of_false (by simp) hfree

theorem isMoved_of_attach (hparent : parent < f.size) (hchild : child < f.size)
    (hfree : (f.attach parent child).1 = true) :
    f.IsMoved parent child (f.attach parent child).2 := by
  rw [Forest.attach] at hfree ⊢
  split at hfree
  · cases hfree
  · next hcond =>
    rw [if_neg hcond]
    exact h.isMoved hparent hchild fun hp => hcond (Or.inl ((h.mem_children_iff _ _).2 hp))

theorem not_isAncestor_parent {c p : ℕ} (hp : f.parent? c = some p) : ¬ f.IsAncestor c p := by
  intro hup
  have hcycle : Relation.TransGen (fun c p => f.parent? c = some p) p p :=
    Relation.TransGen.tail' hup hp
  exact h.wellFounded.transGen.irrefl.irrefl p (Relation.transGen_swap.2 hcycle)

end Linked

/-! ## The way up after a move -/

theorem IsAncestor.trans {k : ℕ} (hi : f.IsAncestor i j) (hj : f.IsAncestor j k) :
    f.IsAncestor i k :=
  Relation.ReflTransGen.trans hj hi

namespace IsMoved

variable (h : f.IsMoved parent child f')
include h

theorem isAncestor_iff_of_not (hj : ¬ f.IsAncestor child j) :
    f'.IsAncestor i j ↔ f.IsAncestor i j := by
  have hne : ∀ {k}, ¬ f.IsAncestor child k → k ≠ child := by
    rintro k hk rfl
    exact hk .refl
  constructor
  · intro hup
    induction hup using Relation.ReflTransGen.head_induction_on with
    | refl => exact .refl
    | head hq _ ih =>
      rw [h.parent?_eq _ (hne hj)] at hq
      exact .head hq (ih fun hchild => hj (.head hq hchild))
  · intro hup
    induction hup using Relation.ReflTransGen.head_induction_on with
    | refl => exact .refl
    | head hq _ ih =>
      refine .head ?_ (ih fun hchild => hj (.head hq hchild))
      rw [h.parent?_eq _ (hne hj), hq]

variable (hf : f.Linked)
include hf

theorem isAncestor_of_between (hi : f.IsAncestor child i) (hj : f.IsAncestor i j) :
    f'.IsAncestor i j := by
  induction hj using Relation.ReflTransGen.head_induction_on with
  | refl => exact .refl
  | @head k q hq hup ih =>
    refine .head ?_ ih
    have hne : k ≠ child := by
      rintro rfl
      exact hf.not_isAncestor_parent hq (hi.trans hup)
    rw [h.parent?_eq k hne, hq]

/-- **The ancestors of a node that has been moved along** are those up to the moved one, and then
the new parent and its ancestors. -/
theorem isAncestor_iff (hfree : ¬ f.IsAncestor child parent) (hj : f.IsAncestor child j) :
    f'.IsAncestor i j ↔ f.IsAncestor child i ∧ f.IsAncestor i j ∨ f.IsAncestor i parent := by
  have habove := h.isAncestor_iff_of_not (i := i) hfree
  constructor
  · intro hup
    induction hup using Relation.ReflTransGen.head_induction_on with
    | refl => exact Or.inl ⟨hj, .refl⟩
    | @head k q hq hup ih =>
      by_cases hk : k = child
      · rw [hk, h.parent?_child] at hq
        obtain rfl := Option.some.inj hq
        exact Or.inr (habove.1 hup)
      · rw [h.parent?_eq k hk] at hq
        have hbelow : f.IsAncestor child q := by
          rcases Relation.ReflTransGen.cases_head hj with hk' | ⟨q', hq', hup'⟩
          · exact absurd hk' hk
          · rwa [Option.some.inj (hq.symm.trans hq')]
        exact (ih hbelow).imp_left fun ⟨hi, hiq⟩ => ⟨hi, .head hq hiq⟩
  · rintro (⟨hi, hij⟩ | hi)
    · exact h.isAncestor_of_between hf hi hij
    · have hlink : f'.IsAncestor parent child := .single h.parent?_child
      exact ((habove.2 hi).trans hlink).trans (h.isAncestor_of_between hf .refl hj)

/-! ## Everything below moves along -/

theorem children_below (hfree : ¬ f.IsAncestor child parent)
    (hi : i ∈ f.descendants child) : f'.children i = f.children i := by
  refine h.children_eq i ?_ fun hformer => hf.not_isAncestor_parent hformer hi
  rintro rfl
  exact hfree hi

theorem descendants_below (hfree : ¬ f.IsAncestor child parent) (hi : i ∈ f.descendants child) :
    f'.descendants i = f.descendants i := by
  ext j
  rw [mem_descendants, mem_descendants]
  by_cases hj : f.IsAncestor child j
  · rw [h.isAncestor_iff hf hfree hj, or_iff_left fun hup => hfree (hi.trans hup)]
    exact and_iff_right hi
  · exact h.isAncestor_iff_of_not hj

theorem descendants_above (hfree : ¬ f.IsAncestor child parent)
    (hi : parent ∈ f.descendants i) :
    f'.descendants i = f.descendants i ∪ f.descendants child := by
  ext j
  rw [Set.mem_union, mem_descendants, mem_descendants, mem_descendants]
  by_cases hj : f.IsAncestor child j
  · rw [h.isAncestor_iff hf hfree hj]
    exact iff_of_true (Or.inr hi) (Or.inr hj)
  · rw [h.isAncestor_iff_of_not hj, or_iff_left hj]

theorem descendants_beside (hfree : ¬ f.IsAncestor child parent)
    (hchild : i ∉ f.descendants child) (hparent : parent ∉ f.descendants i) :
    f'.descendants i = f.descendants i \ f.descendants child := by
  ext j
  rw [Set.mem_sdiff, mem_descendants, mem_descendants, mem_descendants]
  by_cases hj : f.IsAncestor child j
  · rw [h.isAncestor_iff hf hfree hj]
    refine iff_of_false ?_ fun hdiff => hdiff.2 hj
    rintro (⟨hi, -⟩ | hi)
    · exact hchild hi
    · exact hparent hi
  · rw [h.isAncestor_iff_of_not hj, and_iff_left hj]

end IsMoved

/-! ## Attaching -/

/-- **Attaching a node** of a forest that can be built. It is refused, and then nothing changes, iff
the node is a child of the new parent already, or is the new parent or an ancestor of it. Otherwise
the node is moved, and the nodes below it with it: the forest below it is the same, the new parent
and its ancestors gain these nodes, and the other nodes lose them. -/
theorem attach_of_isBuilt (h : f.IsBuilt) (hparent : parent < f.size) (hchild : child < f.size) :
    ((f.attach parent child).1 = false ↔
      f.parent? child = some parent ∨ f.IsAncestor child parent) ∧
    ((f.attach parent child).1 = false → (f.attach parent child).2 = f) ∧
    ((f.attach parent child).1 = true →
      let f' := (f.attach parent child).2
      f.IsMoved parent child f' ∧
      (∀ i ∈ f.descendants child,
        f'.children i = f.children i ∧ f'.descendants i = f.descendants i) ∧
      (∀ i, parent ∈ f.descendants i →
        f'.descendants i = f.descendants i ∪ f.descendants child) ∧
      ∀ i, i ∉ f.descendants child → parent ∉ f.descendants i →
        f'.descendants i = f.descendants i \ f.descendants child) := by
  have hlinked := h.linked
  have hrefused : (f.attach parent child).1 = false ↔
      f.parent? child = some parent ∨ f.IsAncestor child parent :=
    hlinked.attach_refused_iff hparent
  refine ⟨hrefused, fun hfalse => ?_, fun htrue => ?_⟩
  · rw [attach] at hfalse ⊢
    split
    · rfl
    · next hcond => rw [if_neg hcond] at hfalse; cases hfalse
  · have hfree : ¬ f.IsAncestor child parent := fun hup => by
      rw [hrefused.2 (Or.inr hup)] at htrue
      cases htrue
    have hmoved := hlinked.isMoved_of_attach hparent hchild htrue
    exact ⟨hmoved, fun i hi => ⟨hmoved.children_below hlinked hfree hi,
      hmoved.descendants_below hlinked hfree hi⟩, fun i => hmoved.descendants_above hlinked hfree,
      fun i => hmoved.descendants_beside hlinked hfree⟩

/-- `D` can be moved from `A` to `C`, so that it is no longer below `A`; `A` cannot be moved below
its child `B`. -/
theorem attach_of_isBuilt_rearranged : rearranged.IsBuilt ∧
    (rearranged.attach 1 0).1 = false ∧ (rearranged.attach 2 3).1 = true ∧
    (rearranged.attach 2 3).2.children 2 = [0, 3] ∧ (rearranged.attach 2 3).2.children 0 = [1] ∧
    3 ∈ rearranged.descendants 0 ∧ 3 ∉ (rearranged.attach 2 3).2.descendants 0 := by
  have hbelow : ∀ {a i}, i < rearranged.size → (a ∈ rearranged.lineage i ↔
      i ∈ rearranged.descendants a) := isBuilt_rearranged.linked.mem_lineage_iff
  have h₀ : 0 < rearranged.size := by decide
  have h₁ : 1 < rearranged.size := by decide
  have h₂ : 2 < rearranged.size := by decide
  have h₃ : 3 < rearranged.size := by decide
  obtain ⟨hrefused, -, -⟩ := attach_of_isBuilt isBuilt_rearranged h₁ h₀
  obtain ⟨-, -, hmoved⟩ := attach_of_isBuilt isBuilt_rearranged h₂ h₃
  have hfree : (rearranged.attach 2 3).1 = true := by decide
  obtain ⟨heffect, -, -, hlost⟩ := hmoved hfree
  have hnotBelow : (0 : ℕ) ∉ rearranged.descendants 3 := by rw [← hbelow h₀]; decide
  have hnotAbove : (2 : ℕ) ∉ rearranged.descendants 0 := by rw [← hbelow h₂]; decide
  refine ⟨isBuilt_rearranged, hrefused.2 (Or.inr ((hbelow h₁).1 (by decide))), hfree, ?_, ?_, ?_,
    ?_⟩
  · rw [heffect.children_parent]
    decide
  · rw [heffect.children_former 0 (by decide)]
    decide
  · exact (hbelow h₃).1 (by decide)
  · rw [hlost 0 hnotBelow hnotAbove]
    exact fun h => h.2 .refl

end PredictiveParsing.Forest
