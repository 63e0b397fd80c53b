/-!
# Sets of indices

A finite set of symbol indices, kept as the ascending list of its members. Equal sets are equal
values, and the list is the order in which members are shown.

* `IndexSet`, `IndexSet.insert`, `IndexSet.singleton`, `∪`;
* `mem_insert`, `mem_union`: their members;
* **`IndexSet.ext`**: a set is determined by its members.
-/

namespace PredictiveParsing

/-- Puts an index into its place in an ascending list, if it is not there. -/
def insertAscending (a : Nat) : List Nat → List Nat
  | [] => [a]
  | b :: bs => if a < b then a :: b :: bs else if a = b then b :: bs else b :: insertAscending a bs

theorem mem_insertAscending {a x : Nat} {bs : List Nat} :
    x ∈ insertAscending a bs ↔ x = a ∨ x ∈ bs := by
  fun_induction insertAscending a bs with
  | case1 => simp
  | case2 => simp
  | case3 => simp
  | case4 b bs _ _ ih => simp only [List.mem_cons, ih]; exact or_left_comm

theorem pairwise_insertAscending {a : Nat} {bs : List Nat} (h : bs.Pairwise (· < ·)) :
    (insertAscending a bs).Pairwise (· < ·) := by
  fun_induction insertAscending a bs with
  | case1 => simp
  | case2 b bs hab =>
    refine List.pairwise_cons.2 ⟨fun x hx => ?_, h⟩
    rcases List.mem_cons.1 hx with rfl | hx
    · exact hab
    · exact Nat.lt_trans hab ((List.pairwise_cons.1 h).1 x hx)
  | case3 => exact h
  | case4 b bs hab hne ih =>
    obtain ⟨hb, hbs⟩ := List.pairwise_cons.1 h
    refine List.pairwise_cons.2 ⟨fun x hx => ?_, ih hbs⟩
    rcases mem_insertAscending.1 hx with rfl | hx
    · omega
    · exact hb x hx

/-- A finite set of indices. -/
structure IndexSet where
  toList : List Nat
  ascending : toList.Pairwise (· < ·)
deriving DecidableEq

namespace IndexSet

instance : EmptyCollection IndexSet := ⟨⟨[], .nil⟩⟩

instance : Membership Nat IndexSet := ⟨fun s a => a ∈ s.toList⟩

instance (a : Nat) (s : IndexSet) : Decidable (a ∈ s) := inferInstanceAs (Decidable (a ∈ s.toList))

/-- The set with one more member. -/
def insert (a : Nat) (s : IndexSet) : IndexSet :=
  ⟨insertAscending a s.toList, pairwise_insertAscending s.ascending⟩

/-- The set of one index. -/
def singleton (a : Nat) : IndexSet := insert a ∅

instance : Union IndexSet := ⟨fun s t => s.toList.foldr insert t⟩

variable {s t : IndexSet} {a b : Nat}

theorem mem_iff : a ∈ s ↔ a ∈ s.toList := .rfl

@[simp]
theorem notMem_empty : a ∉ (∅ : IndexSet) := by simp [mem_iff, EmptyCollection.emptyCollection]

@[simp]
theorem mem_insert : b ∈ insert a s ↔ b = a ∨ b ∈ s := mem_insertAscending

@[simp]
theorem mem_singleton : b ∈ singleton a ↔ b = a := by simp [singleton]

@[simp]
theorem mem_union : a ∈ s ∪ t ↔ a ∈ s ∨ a ∈ t := by
  have h : ∀ as : List Nat, a ∈ as.foldr insert t ↔ a ∈ as ∨ a ∈ t := by
    intro as
    induction as with
    | nil => simp
    | cons b as ih => simp [ih, or_assoc]
  exact h s.toList

/-- **A set is determined by its members.** -/
@[ext]
theorem ext (h : ∀ a, a ∈ s ↔ a ∈ t) : s = t := by
  obtain ⟨as, has⟩ := s
  obtain ⟨bs, hbs⟩ := t
  have hperm : as.Perm bs :=
    (List.perm_ext_iff_of_nodup (has.imp Nat.ne_of_lt) (hbs.imp Nat.ne_of_lt)).2 h
  obtain rfl := hperm.eq_of_pairwise (fun _ _ _ _ hab hba => absurd hba (Nat.lt_asymm hab)) has hbs
  rfl

end IndexSet

end PredictiveParsing
