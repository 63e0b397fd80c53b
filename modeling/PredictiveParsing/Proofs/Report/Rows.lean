import Mathlib
import PredictiveParsing.Report.Table

/-!
# Rows of a report

A report has a row for every nonterminal, and the report of a table a column for every terminal.
Rows and entries are in the order of their names, and they are looked up by name.

* `sortOn_eq_insertionSort`: the sort is that of Mathlib; **`sortOn_eq_of_perm`**: it forgets the
  order, if the keys are different; `pairwise_lt_sortOn`: then no key comes twice;
* `map_fst_filterMap`, `lookup_eq_some_iff`: the names of entries, and looking one up;
* `nameOf_inj`, `map_zipIdx_nonterminals`: the rows of a report, by number;
* `map_nameOf_terminalRange`: the columns of a table, by number;
* `NumberedGrammar.filledRow`, **`map_fst_transitions_perm`**: the rows of a table, by name.
-/

namespace PredictiveParsing

/-! ## Sorting -/

section

variable {α : Type} {key : α → Text} {as bs : List α}

theorem sortOn_eq_insertionSort (key : α → Text) (as : List α) :
    sortOn key as = as.insertionSort fun x y => key x ≤ key y := by
  have hinsert : insertOn key = List.orderedInsert fun x y => key x ≤ key y := by
    funext a as
    induction as with
    | nil => rfl
    | cons b bs ih =>
      rw [insertOn, ih, List.orderedInsert_cons]
      simp only [← not_lt, ite_not]
  rw [sortOn, hinsert, List.insertionSort]

theorem sortOn_perm (key : α → Text) (as : List α) : (sortOn key as).Perm as := by
  rw [sortOn_eq_insertionSort]
  exact List.perm_insertionSort _ as

theorem mem_sortOn {a : α} : a ∈ sortOn key as ↔ a ∈ as := (sortOn_perm key as).mem_iff

theorem pairwise_sortOn (key : α → Text) (as : List α) :
    (sortOn key as).Pairwise fun x y => key x ≤ key y := by
  rw [sortOn_eq_insertionSort]
  exact List.pairwise_insertionSort _ as

theorem sortOn_eq_self (h : (as.map key).Pairwise (· < ·)) : sortOn key as = as := by
  rw [sortOn_eq_insertionSort]
  exact ((List.pairwise_map.1 h).imp le_of_lt).insertionSort_eq

/-- **Sorting forgets the order** of entries that are told apart by their keys. -/
theorem sortOn_eq_of_perm (h : as.Perm bs)
    (hkey : ∀ a ∈ as, ∀ b ∈ as, key a = key b → a = b) : sortOn key as = sortOn key bs := by
  have hperm := (sortOn_perm key as).trans (h.trans (sortOn_perm key bs).symm)
  refine hperm.eq_of_pairwise (fun a b ha hb hab hba => ?_) (pairwise_sortOn key as)
    (pairwise_sortOn key bs)
  exact hkey a (mem_sortOn.1 ha) b (h.mem_iff.2 (mem_sortOn.1 hb)) (le_antisymm hab hba)

theorem nodup_map_sortOn_iff {β : Type} {f : α → β} :
    ((sortOn key as).map f).Nodup ↔ (as.map f).Nodup :=
  ((sortOn_perm key as).map f).nodup_iff

theorem pairwise_lt_sortOn (h : (as.map key).Nodup) :
    ((sortOn key as).map key).Pairwise (· < ·) := by
  have hnodup : ((sortOn key as).map key).Nodup := nodup_map_sortOn_iff.2 h
  have hle : ((sortOn key as).map key).Pairwise (· ≤ ·) :=
    List.pairwise_map.2 (pairwise_sortOn key as)
  exact (hle.and hnodup).imp fun hxy => lt_of_le_of_ne hxy.1 hxy.2

end

/-! ## Names of entries -/

theorem map_fst_filterMap {α β : Type} (name : α → Text) (value? : α → Option β) (as : List α) :
    (as.filterMap fun a => (value? a).map fun b => (name a, b)).map Prod.fst =
      (as.filter fun a => (value? a).isSome).map name := by
  induction as with
  | nil => rfl
  | cons a as ih =>
    cases ha : value? a with
    | none => simpa [ha] using ih
    | some b => simpa [ha] using ih

theorem lookup_eq_some_iff {β : Type} {entries : List (Text × β)} {name : Text} {b : β}
    (h : (entries.map Prod.fst).Nodup) : entries.lookup name = some b ↔ (name, b) ∈ entries := by
  induction entries with
  | nil => simp
  | cons entry entries ih =>
    obtain ⟨name', b'⟩ := entry
    obtain ⟨hnew, hrest⟩ := List.nodup_cons.1 h
    by_cases hname : name = name'
    · subst hname
      have hnotMem : (name, b) ∉ entries := fun hmem => hnew (List.mem_map.2 ⟨_, hmem, rfl⟩)
      simp [hnotMem, eq_comm]
    · have hne : (name == name') = false := by simpa using hname
      simp [List.lookup_cons, hne, ih hrest, hname]

/-! ## Rows -/

namespace NumberedGrammar

variable {g : NumberedGrammar}

theorem nameOf_lt {A : ℕ} (hA : A < g.nonterminals.length) : g.nameOf A = g.nonterminals[A] := by
  rw [nameOf, names, List.getD_append _ _ _ _ hA, List.getD_eq_getElem _ _ hA]

theorem map_zipIdx_nonterminals {β : Type} (row : Text × ℕ → β) :
    g.nonterminals.zipIdx.map row =
      (List.range g.nonterminals.length).map fun A => row (g.nameOf A, A) := by
  refine List.ext_getElem (by simp) fun i hi _ => ?_
  have hlt : i < g.nonterminals.length := by simpa using hi
  simp [nameOf_lt hlt]

theorem lt_size_of_lt {A : ℕ} (hA : A < g.nonterminals.length) : A < g.size := by
  rw [size, names, List.length_append]
  exact Nat.lt_add_right _ hA

theorem mem_terminalRange {i : ℕ} :
    i ∈ g.terminalRange ↔ ¬ i < g.nonterminals.length ∧ i < g.size := by
  rw [terminalRange, List.mem_range'_1, size, names, List.length_append, Nat.not_lt]

theorem nameOf_inj (hnodup : g.names.Nodup) {i j : ℕ} (hi : i < g.size) (hj : j < g.size)
    (h : g.nameOf i = g.nameOf j) : i = j := by
  rw [nameOf, nameOf, List.getD_eq_getElem _ _ hi, List.getD_eq_getElem _ _ hj] at h
  exact hnodup.getElem_inj_iff.1 h

theorem map_terminalRange {α : Type} (f : ℕ → α) : g.terminalRange.map f =
    (List.range g.terminals.length).map fun j => f (g.nonterminals.length + j) := by
  rw [terminalRange, List.range'_eq_map_range, List.map_map]
  rfl

theorem map_nameOf_terminalRange : g.terminalRange.map g.nameOf = g.terminals := by
  refine List.ext_getElem (by simp [terminalRange]) fun j hj hj' => ?_
  have hname : g.names[g.nonterminals.length + j]? = some g.terminals[j] := by
    rw [names, List.getElem?_append_right (Nat.le_add_right _ _), Nat.add_sub_cancel_left,
      List.getElem?_eq_getElem hj']
  simp [terminalRange, nameOf, hname]

theorem nodup_nonterminals (hnodup : g.names.Nodup) : g.nonterminals.Nodup :=
  hnodup.sublist (List.sublist_append_left _ _)

theorem nodup_terminals (hnodup : g.names.Nodup) : g.terminals.Nodup :=
  hnodup.sublist (List.sublist_append_right _ _)

/-! ## Filled cells by name -/

variable {T : Table} {A : ℕ}

/-- The filled cells of a nonterminal, each a terminal and a production, by name. -/
def filledRow (g : NumberedGrammar) (T : Table) (A : ℕ) : List (Text × Text) :=
  sortOn (·.1) <| g.terminalRange.filterMap fun t =>
    (g.cellText? T A t).map fun text => (g.nameOf t, text)

theorem map_fst_filledRow_perm : ((g.filledRow T A).map Prod.fst).Perm
    ((g.terminalRange.filter fun t => (T.get? A t).isSome).map g.nameOf) := by
  have hnames := map_fst_filterMap g.nameOf (g.cellText? T A) g.terminalRange
  simp only [cellText?, Option.isSome_map] at hnames
  exact ((sortOn_perm _ _).map _).trans (List.Perm.of_eq hnames)

theorem nodup_map_fst_filledRow (hnodup : g.names.Nodup) (T : Table) (A : ℕ) :
    ((g.filledRow T A).map Prod.fst).Nodup := by
  refine map_fst_filledRow_perm.nodup_iff.2 ((nodup_terminals hnodup).sublist ?_)
  rw [← map_nameOf_terminalRange]
  exact List.filter_sublist.map _

theorem transitions_eq_sortOn : g.transitions T =
    sortOn (·.1) (g.nonterminals.zipIdx.map fun (name, A) => (name, g.filledRow T A)) := rfl

theorem map_fst_transitions_perm : ((g.transitions T).map Prod.fst).Perm g.nonterminals := by
  rw [transitions_eq_sortOn]
  refine ((sortOn_perm _ _).map _).trans (List.Perm.of_eq ?_)
  rw [List.map_map]
  exact List.zipIdx_map_fst 0 g.nonterminals

theorem nodup_map_fst_transitions (hnodup : g.names.Nodup) (T : Table) :
    ((g.transitions T).map Prod.fst).Nodup :=
  map_fst_transitions_perm.nodup_iff.2 (nodup_nonterminals hnodup)

end NumberedGrammar

end PredictiveParsing
