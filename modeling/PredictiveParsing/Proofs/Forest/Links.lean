import Mathlib
import PredictiveParsing.Proofs.Forest.Growth

/-!
# Links of a forest

However a forest has been built, each node is a child of its parent and of no other node, and going
up from parent to parent comes to an end. Moving a node cannot close a cycle, as the node is none of
the ancestors of its new parent.

* `Forest.Linked`: the links between parents and children; `Forest.IsAncestor`;
* `wellFounded_relink`: one new link closes no cycle if it does not lead back;
* **`Linked.lineage_eq`**, `Linked.mem_lineage_iff`: the ancestors of a node, none of them left out;
* `Linked.addNode`, **`Linked.attach`**: what building preserves;
* `Forest.IsBuilt`, **`links_of_isBuilt`**: the links of every forest that can be built.
-/

namespace PredictiveParsing.Forest

variable {f : Forest} {i j c p parent child limit : ℕ}

/-- Parents and children know each other, no child stands twice below its parent, and the way up
from parent to parent ends. -/
structure Linked (f : Forest) : Prop where
  mem_children_iff : ∀ p c, c ∈ f.children p ↔ f.parent? c = some p
  nodup_children : ∀ p, (f.children p).Nodup
  wellFounded : WellFounded fun p c => f.parent? c = some p

/-- The node `a` is `i` or lies on the way up from `i`. -/
def IsAncestor (f : Forest) (a i : ℕ) : Prop :=
  Relation.ReflTransGen (fun c p => f.parent? c = some p) i a

/-! ## One new link -/

/-- **A new parent closes no cycle** if the node is not on the way up from it. -/
theorem wellFounded_relink {up up' : ℕ → Option ℕ} (h : WellFounded fun p c => up c = some p)
    (hnew : up' child = some parent) (hold : ∀ i, i ≠ child → up' i = up i)
    (hparent : ¬ Relation.ReflTransGen (fun c p => up c = some p) parent child) :
    WellFounded fun p c => up' c = some p := by
  -- Above the new parent nothing has changed.
  have hfree : ∀ i, ¬ Relation.ReflTransGen (fun c p => up c = some p) i child →
      Acc (fun p c => up' c = some p) i := by
    intro i
    induction i using h.induction with
    | _ i ih =>
      intro hi
      refine ⟨i, fun q hq => ?_⟩
      have hne : i ≠ child := by
        rintro rfl
        exact hi .refl
      rw [hold i hne] at hq
      exact ih q hq fun hq' => hi (.head hq hq')
  refine ⟨fun i => ?_⟩
  induction i using h.induction with
  | _ i ih =>
    refine ⟨i, fun q hq => ?_⟩
    by_cases hi : i = child
    · rw [hi, hnew] at hq
      rw [← Option.some.inj hq]
      exact hfree parent hparent
    · rw [hold i hi] at hq
      exact ih q hq

/-! ## The way up -/

theorem parent?_eq_none (h : f.size ≤ i) : f.parent? i = none := by
  rw [parent?, Array.getElem?_eq_none h]
  rfl

theorem lt_of_parent?_eq_some (h : f.parent? c = some p) : c < f.size := by
  by_contra hc
  rw [parent?_eq_none (Nat.le_of_not_lt hc)] at h
  cases h

theorem lineageWithin_of_none (h : f.parent? i = none) :
    f.lineageWithin (limit + 1) i = [i] := by
  simp [lineageWithin, h]

theorem lineageWithin_of_some (h : f.parent? c = some p) :
    f.lineageWithin (limit + 1) c = c :: f.lineageWithin limit p := by
  simp [lineageWithin, h]

theorem isAncestor_of_mem_lineageWithin (h : j ∈ f.lineageWithin limit i) : f.IsAncestor j i := by
  induction limit generalizing i with
  | zero => exact absurd h List.not_mem_nil
  | succ limit ih =>
    cases hp : f.parent? i with
    | none =>
      rw [lineageWithin_of_none hp, List.mem_singleton] at h
      rw [h]
      exact .refl
    | some p =>
      rw [lineageWithin_of_some hp, List.mem_cons] at h
      rcases h with rfl | h
      · exact .refl
      · exact .head hp (ih h)

namespace Linked

variable (h : f.Linked)
include h

theorem lt_of_parent? (hp : f.parent? c = some p) : p < f.size :=
  lt_of_mem_children_self ((h.mem_children_iff p c).2 hp)

theorem lt_of_isAncestor (hi : i < f.size) (ha : f.IsAncestor j i) : j < f.size := by
  induction ha with
  | refl => exact hi
  | tail _ hp _ => exact h.lt_of_parent? hp

theorem nodup_lineageWithin (limit i : ℕ) : (f.lineageWithin limit i).Nodup := by
  induction limit generalizing i with
  | zero => exact .nil
  | succ limit ih =>
    cases hp : f.parent? i with
    | none =>
      rw [lineageWithin_of_none hp]
      exact List.nodup_singleton i
    | some p =>
      rw [lineageWithin_of_some hp, List.nodup_cons]
      refine ⟨fun hi => ?_, ih p⟩
      have hcycle : Relation.TransGen (fun c p => f.parent? c = some p) i i :=
        .head' hp (isAncestor_of_mem_lineageWithin hi)
      exact h.wellFounded.transGen.irrefl.irrefl i (Relation.transGen_swap.2 hcycle)

theorem length_lineageWithin_le (hi : i < f.size) (limit : ℕ) :
    (f.lineageWithin limit i).length ≤ f.size := by
  have hsub : f.lineageWithin limit i ⊆ List.range f.size := fun j hj =>
    List.mem_range.2 (h.lt_of_isAncestor hi (isAncestor_of_mem_lineageWithin hj))
  have hle := ((h.nodup_lineageWithin limit i).subperm hsub).length_le
  rwa [List.length_range] at hle

theorem exists_lineageWithin_eq_take (i : ℕ) :
    ∃ path : List ℕ, ∀ limit, f.lineageWithin limit i = path.take limit := by
  induction i using h.wellFounded.induction with
  | _ i ih =>
    cases hp : f.parent? i with
    | none =>
      refine ⟨[i], fun limit => ?_⟩
      cases limit with
      | zero => rfl
      | succ limit => rw [lineageWithin_of_none hp, List.take_succ_cons, List.take_nil]
    | some p =>
      obtain ⟨path, hpath⟩ := ih p hp
      refine ⟨i :: path, fun limit => ?_⟩
      cases limit with
      | zero => rfl
      | succ limit => rw [lineageWithin_of_some hp, List.take_succ_cons, hpath]

/-- **The way up ends within the limit**: a larger one adds nothing. -/
theorem lineageWithin_eq (hi : i < f.size) (hlimit : f.size ≤ limit) :
    f.lineageWithin limit i = f.lineage i := by
  obtain ⟨path, hpath⟩ := h.exists_lineageWithin_eq_take i
  have hlength := h.length_lineageWithin_le hi path.length
  rw [hpath, List.take_length] at hlength
  rw [lineage, hpath, hpath, List.take_of_length_le (hlength.trans hlimit),
    List.take_of_length_le hlength]

/-- **A node and its ancestors** are the node, and the parent with its ancestors. -/
theorem lineage_eq (hi : i < f.size) :
    f.lineage i = i :: ((f.parent? i).map f.lineage).getD [] := by
  rw [← h.lineageWithin_eq hi (Nat.le_succ f.size)]
  cases hp : f.parent? i with
  | none => exact lineageWithin_of_none hp
  | some p => exact lineageWithin_of_some hp

theorem lineage_of_some (hp : f.parent? c = some p) : f.lineage c = c :: f.lineage p := by
  rw [h.lineage_eq (lt_of_parent?_eq_some hp), hp]
  rfl

theorem self_mem_lineage (hi : i < f.size) : i ∈ f.lineage i := by
  rw [h.lineage_eq hi]
  exact List.mem_cons_self

theorem mem_lineage_iff (hi : i < f.size) : j ∈ f.lineage i ↔ f.IsAncestor j i := by
  refine ⟨isAncestor_of_mem_lineageWithin, fun ha => ?_⟩
  induction ha using Relation.ReflTransGen.head_induction_on with
  | refl => exact h.self_mem_lineage hi
  | head hp _ ih =>
    rw [h.lineage_of_some hp]
    exact List.mem_cons_of_mem _ (ih (h.lt_of_parent? hp))

end Linked

/-! ## What building does to the links -/

theorem parent?_addNode (label : Char) (parent? : Option ℕ) (i : ℕ) :
    (f.addNode label parent?).parent? i = if i = f.size then parent? else f.parent? i := by
  have hpush : ∀ q : Option ℕ, (f.nodes.push ⟨label, q, []⟩)[i]?.bind (·.parent?) =
      if i = f.size then q else f.parent? i := by
    intro q
    rw [Array.getElem?_push, size]
    split
    · rfl
    · rfl
  cases parent? with
  | none => exact hpush none
  | some parent =>
    rw [← hpush, addNode, adopt, Forest.parent?, Array.getElem?_modify]
    split
    · rw [Option.bind_map]
      rfl
    · rfl

theorem children_addNode_none (label : Char) (i : ℕ) :
    (f.addNode label none).children i = f.children i := by
  rw [addNode, children, Array.getElem?_push]
  split
  · next hi =>
    rw [children_eq_nil (by rw [size]; exact hi.ge)]
    rfl
  · rfl

theorem children_disown (parent child i : ℕ) : (f.disown parent child).children i =
    if i = parent then (f.children i).filter (· ≠ child) else f.children i := by
  rw [disown, children, children, Array.getElem?_modify]
  by_cases hi : i = parent
  · rw [if_pos hi.symm, if_pos hi]
    cases f.nodes[i]? with
    | none => rfl
    | some n => rfl
  · rw [if_neg (Ne.symm hi), if_neg hi]

theorem children_adopt (hparent : parent < f.size) (child i : ℕ) :
    (f.adopt parent child).children i =
      f.children i ++ if i = parent then [child] else [] := by
  rw [adopt, children, children, Array.getElem?_modify]
  by_cases hi : i = parent
  · have hlt : i < f.nodes.size := hi ▸ hparent
    rw [if_pos hi.symm, if_pos hi, Array.getElem?_eq_getElem hlt]
    rfl
  · rw [if_neg (Ne.symm hi), if_neg hi, List.append_nil]

theorem children_setParent (child parent i : ℕ) :
    (f.setParent child parent).children i = f.children i := by
  rw [setParent, children, children, Array.getElem?_modify]
  split
  · rw [Option.map_map]
    rfl
  · rfl

theorem parent?_disown (parent child i : ℕ) :
    (f.disown parent child).parent? i = f.parent? i := by
  rw [disown, Forest.parent?, Forest.parent?, Array.getElem?_modify]
  split
  · rw [Option.bind_map]
    rfl
  · rfl

theorem parent?_adopt (parent child i : ℕ) :
    (f.adopt parent child).parent? i = f.parent? i := by
  rw [adopt, Forest.parent?, Forest.parent?, Array.getElem?_modify]
  split
  · rw [Option.bind_map]
    rfl
  · rfl

theorem parent?_setParent (hchild : child < f.size) (parent i : ℕ) :
    (f.setParent child parent).parent? i = if i = child then some parent else f.parent? i := by
  rw [setParent, Forest.parent?, Forest.parent?, Array.getElem?_modify]
  by_cases hi : i = child
  · have hlt : i < f.nodes.size := hi ▸ hchild
    rw [if_pos hi.symm, if_pos hi, Array.getElem?_eq_getElem hlt]
    rfl
  · rw [if_neg (Ne.symm hi), if_neg hi]

theorem parent?_move (hchild : child < f.size) (parent i : ℕ) :
    (f.move parent child).parent? i = if i = child then some parent else f.parent? i := by
  rw [move]
  split
  · rw [parent?_setParent (by simpa using hchild), parent?_adopt, parent?_disown]
  · rw [parent?_setParent (by simpa using hchild), parent?_adopt]

theorem Linked.children_move (h : f.Linked) (hparent : parent < f.size) (child i : ℕ) :
    (f.move parent child).children i =
      (f.children i).filter (· ≠ child) ++ if i = parent then [child] else [] := by
  have hkeep : ∀ i, f.parent? child ≠ some i → (f.children i).filter (· ≠ child) = f.children i := by
    intro i hi
    refine List.filter_eq_self.2 fun c hc => decide_eq_true ?_
    rintro rfl
    exact hi ((h.mem_children_iff i c).1 hc)
  rw [move, children_setParent]
  split
  · next former hformer =>
    rw [children_adopt (by simpa using hparent), children_disown]
    by_cases hi : i = former
    · rw [if_pos hi]
    · rw [if_neg hi, hkeep i]
      rw [hformer]
      exact fun heq => hi (Option.some.inj heq).symm
  · next hformer =>
    rw [children_adopt hparent, hkeep i]
    rw [hformer]
    nofun

/-! ## What building preserves -/

theorem linked_singleton (label : Char) : (singleton label).Linked := by
  have hparent : ∀ i, (singleton label).parent? i = none := by
    intro i
    cases i with
    | zero => rfl
    | succ i => exact parent?_eq_none (Nat.succ_pos i)
  refine ⟨fun p c => ?_, fun p => ?_, ⟨fun i => ⟨i, fun p hp => ?_⟩⟩⟩
  · simp [children_singleton, hparent]
  · rw [children_singleton]
    exact .nil
  · rw [hparent] at hp
    cases hp

theorem Linked.addNode (h : f.Linked) (label : Char) {parent? : Option ℕ}
    (hparent : ∀ p ∈ parent?, p < f.size) : (f.addNode label parent?).Linked := by
  have hnone := parent?_eq_none (le_refl f.size)
  cases parent? with
  | none =>
    have hup : ∀ i, (f.addNode label none).parent? i = f.parent? i := by
      intro i
      rw [parent?_addNode]
      split
      · next hi => rw [hi, hnone]
      · rfl
    refine ⟨fun p c => ?_, fun p => ?_, ?_⟩
    · rw [children_addNode_none, hup]
      exact h.mem_children_iff p c
    · rw [children_addNode_none]
      exact h.nodup_children p
    · simp only [hup]
      exact h.wellFounded
  | some parent =>
    have hlt := hparent parent rfl
    have hnew : (f.addNode label (some parent)).parent? f.size = some parent := by
      rw [parent?_addNode, if_pos rfl]
    have hold : ∀ i, i ≠ f.size → (f.addNode label (some parent)).parent? i = f.parent? i :=
      fun i hi => by rw [parent?_addNode, if_neg hi]
    have hfresh : ∀ p, f.size ∉ f.children p := by
      intro p hp
      rw [h.mem_children_iff, hnone] at hp
      cases hp
    refine ⟨fun p c => ?_, fun p => ?_, ?_⟩
    · rw [children_addNode hlt, parent?_addNode]
      by_cases hc : c = f.size <;> by_cases hp : p = parent
      · simp [hc, hp]
      · simp [hc, hp, hfresh, Ne.symm hp]
      · simp [hc, hp, h.mem_children_iff]
      · simp [hc, hp, h.mem_children_iff]
    · rw [children_addNode hlt]
      split
      · rw [← List.concat_eq_append]
        exact (h.nodup_children p).concat (hfresh p)
      · exact h.nodup_children p
    · exact wellFounded_relink h.wellFounded hnew hold fun hup =>
        absurd (h.lt_of_isAncestor hlt hup) (Nat.lt_irrefl _)

/-- **Attaching preserves the links**: the node gets a new parent that it is no ancestor of. -/
theorem Linked.attach (h : f.Linked) (hparent : parent < f.size) (hchild : child < f.size) :
    (f.attach parent child).2.Linked := by
  rw [Forest.attach]
  split
  · exact h
  · next hfree =>
    obtain ⟨-, hlineage⟩ := not_or.1 hfree
    refine ⟨fun p c => ?_, fun p => ?_, ?_⟩
    · rw [h.children_move hparent, parent?_move hchild, List.mem_append, List.mem_filter,
        h.mem_children_iff]
      by_cases hc : c = child <;> by_cases hp : p = parent
      · simp [hc, hp]
      · simp [hc, hp, Ne.symm hp]
      · simp [hc, hp]
      · simp [hc, hp]
    · rw [h.children_move hparent]
      refine List.Nodup.append ((h.nodup_children p).filter _) ?_ fun c hc hnew => ?_
      · split
        · exact List.nodup_singleton child
        · exact .nil
      · obtain ⟨-, hne⟩ := List.mem_filter.1 hc
        split at hnew
        · exact of_decide_eq_true hne (List.mem_singleton.1 hnew)
        · exact absurd hnew List.not_mem_nil
    · have hnew : (f.move parent child).parent? child = some parent := by
        rw [parent?_move hchild, if_pos rfl]
      refine wellFounded_relink h.wellFounded hnew ?_ ?_
      · intro i hi
        rw [parent?_move hchild, if_neg hi]
      · exact fun hup => hlineage ((h.mem_lineage_iff hparent).2 hup)

/-! ## Forests that can be built -/

/-- The forests that can be built: a root, then any number of new and of moved nodes. -/
inductive IsBuilt : Forest → Prop where
  | singleton (label : Char) : IsBuilt (.singleton label)
  | addNode {f : Forest} (h : IsBuilt f) (label : Char) (parent? : Option ℕ)
      (hparent : ∀ p ∈ parent?, p < f.size) : IsBuilt (f.addNode label parent?)
  | attach {f : Forest} (h : IsBuilt f) (parent child : ℕ) (hparent : parent < f.size)
      (hchild : child < f.size) : IsBuilt (f.attach parent child).2

/-- **Every forest that can be built is linked.** -/
theorem IsBuilt.linked (h : f.IsBuilt) : f.Linked := by
  induction h with
  | singleton label => exact linked_singleton label
  | addNode _ label _ hparent ih => exact ih.addNode label hparent
  | attach _ _ _ hparent hchild ih => exact ih.attach hparent hchild

theorem IsBuilt.size_pos (h : f.IsBuilt) : 0 < f.size := by
  induction h with
  | singleton label => exact Nat.one_pos
  | addNode _ label parent? _ _ =>
    rw [size_addNode]
    exact Nat.succ_pos _
  | attach _ parent child _ _ ih => rwa [size_attach]

/-- The node that is so many links above a node, if there is one. -/
def ancestor? (f : Forest) : ℕ → ℕ → Option ℕ
  | 0, i => some i
  | steps + 1, i => (f.parent? i).bind (f.ancestor? steps)

theorem isAncestor_iff_exists_ancestor? :
    f.IsAncestor j i ↔ ∃ steps, f.ancestor? steps i = some j := by
  constructor
  · intro ha
    induction ha using Relation.ReflTransGen.head_induction_on with
    | refl => exact ⟨0, rfl⟩
    | head hp _ ih =>
      obtain ⟨steps, hsteps⟩ := ih
      exact ⟨steps + 1, by rw [ancestor?, hp, Option.bind_some, hsteps]⟩
  · rintro ⟨steps, hsteps⟩
    induction steps generalizing i with
    | zero => exact Option.some.inj hsteps ▸ .refl
    | succ steps ih =>
      obtain ⟨p, hp, hup⟩ := Option.bind_eq_some_iff.1 hsteps
      exact .head hp (ih hup)

theorem Linked.exists_top (h : f.Linked) (hi : i < f.size) :
    ∃ steps top, steps + 1 = (f.lineage i).length ∧ f.ancestor? steps i = some top ∧
      f.parent? top = none := by
  induction i using h.wellFounded.induction with
  | _ i ih =>
    rw [h.lineage_eq hi]
    cases hp : f.parent? i with
    | none => exact ⟨0, i, rfl, rfl, hp⟩
    | some p =>
      obtain ⟨steps, top, hsteps, hup, htop⟩ := ih p hp (h.lt_of_parent? hp)
      refine ⟨steps + 1, top, ?_, ?_, htop⟩
      · simp [hsteps]
      · rw [ancestor?, hp, Option.bind_some, hup]

/-- **The links of a forest**, however it has been built. A node is a child of its parent and of no
other node, and stands there once. Going up from a node takes fewer steps than there are nodes to
reach one without a parent; so the walk from a node over its ancestors is complete within its limit,
which a larger limit does not change. -/
theorem links_of_isBuilt (h : f.IsBuilt) :
    (∀ p c, c ∈ f.children p ↔ f.parent? c = some p) ∧
    (∀ p, (f.children p).Nodup) ∧
    ∀ i < f.size,
      (∃ steps < f.size, ∃ top, f.ancestor? steps i = some top ∧ f.parent? top = none) ∧
      (∀ a, a ∈ f.lineage i ↔ ∃ steps, f.ancestor? steps i = some a) ∧
      ∀ limit, f.size ≤ limit → f.lineageWithin limit i = f.lineage i := by
  have hlinked := h.linked
  refine ⟨hlinked.mem_children_iff, hlinked.nodup_children, fun i hi => ⟨?_, fun a => ?_, ?_⟩⟩
  · obtain ⟨steps, top, hsteps, hup, htop⟩ := hlinked.exists_top hi
    have hlength := hlinked.length_lineageWithin_le hi f.size
    refine ⟨steps, ?_, top, hup, htop⟩
    rw [lineage] at hsteps
    omega
  · rw [hlinked.mem_lineage_iff hi, isAncestor_iff_exists_ancestor?]
  · exact fun limit hlimit => hlinked.lineageWithin_eq hi hlimit

/-- A node `D` that is moved from `C` below the root `A`, which then comes below `C` itself. -/
def rearranged : Forest :=
  let f := ((singleton 'A').addNode 'B' (some 0)).addNode 'C' none
  let f := ((f.addNode 'D' (some 2)).attach 0 3).2
  (f.attach 2 0).2

theorem isBuilt_rearranged : rearranged.IsBuilt := by
  have hadded : (((singleton 'A').addNode 'B' (some 0)).addNode 'C' none).IsBuilt :=
    .addNode (.addNode (.singleton 'A') 'B' (some 0) (by decide)) 'C' none (by decide)
  have hmoved := (hadded.addNode 'D' (some 2) (by decide)).attach 0 3 (by decide) (by decide)
  exact hmoved.attach 2 0 (by decide) (by decide)

/-- `D` has become the second child of the root, and going up from it ends at `C`. -/
theorem links_of_isBuilt_rearranged : rearranged.IsBuilt ∧ rearranged.children 0 = [1, 3] ∧
    rearranged.parent? 3 = some 0 ∧ rearranged.parent? 0 = some 2 ∧ 2 ∈ rearranged.lineage 3 ∧
    ∃ steps < rearranged.size, ∃ top, rearranged.ancestor? steps 3 = some top ∧
      rearranged.parent? top = none := by
  obtain ⟨hlinks, -, hup⟩ := links_of_isBuilt isBuilt_rearranged
  obtain ⟨htop, hlineage, -⟩ := hup 3 (by decide)
  refine ⟨isBuilt_rearranged, by decide, (hlinks 0 3).1 (by decide), (hlinks 2 0).1 (by decide), ?_⟩
  exact ⟨(hlineage 2).2 ⟨2, by decide⟩, htop⟩

end PredictiveParsing.Forest
