import Mathlib
import PredictiveParsing.Proofs.Numbering
import PredictiveParsing.Table

/-!
# What a table holds

A table is made only if no place is claimed twice, and then it holds exactly the claims.

* `Cell.key`: the place of a cell;
* `ofClaims_eq_ok`, `cells_ofClaims`: the table of some claims;
* `mem_claimed`, `mem_claims`: which claims there are;
* `nodup_claims_iff`: no place is claimed twice iff no nonterminal claims a terminal twice;
* `cells_of_table`, **`table_eq_ok`**: the table of a grammar; `body_of_get?`: what a cell holds.
-/

namespace PredictiveParsing

theorem pairwise_snd_zipIdx {α : Type} (xs : List α) (k : ℕ) :
    (xs.zipIdx k).Pairwise fun a b => a.2 < b.2 := by
  rw [← List.pairwise_map (f := Prod.snd) (R := (· < ·)), List.zipIdx_map_snd]
  exact List.pairwise_lt_range'

/-- The place of a cell in the table. -/
def Cell.key (c : Cell) : ℕ × ℕ := (c.nonterminal, c.terminal)

namespace Table

variable {T T' : Table} {A t i : ℕ}

theorem get?_eq_none_of_register {c : Cell} (h : T.register c = .ok T') :
    T.get? c.nonterminal c.terminal = none := by
  unfold register at h
  split at h
  · cases h
  · next hfree => simpa using hfree

theorem get?_register_iff {c : Cell} (h : T.register c = .ok T') :
    T'.get? A t = some i ↔ T.get? A t = some i ∨ ⟨A, t, i⟩ = c := by
  have hfree := get?_eq_none_of_register h
  rw [get?_of_register h]
  by_cases hk : A = c.nonterminal ∧ t = c.terminal
  · obtain ⟨rfl, rfl⟩ := hk
    rw [if_pos ⟨rfl, rfl⟩, hfree]
    obtain ⟨A, t, j⟩ := c
    simp [eq_comm]
  · rw [if_neg hk]
    have hne : ¬ (⟨A, t, i⟩ : Cell) = c := by
      rintro rfl
      exact hk ⟨rfl, rfl⟩
    rw [or_iff_left hne]

theorem foldlM_register_eq_ok {cs : List Cell} (h : cs.foldlM register T = .ok T') :
    (∀ c ∈ cs, T.get? c.nonterminal c.terminal = none) ∧ (cs.map Cell.key).Nodup ∧
      ∀ A t i, T'.get? A t = some i ↔ T.get? A t = some i ∨ ⟨A, t, i⟩ ∈ cs := by
  induction cs generalizing T with
  | nil =>
    cases h
    simp
  | cons c cs ih =>
    rw [List.foldlM_cons] at h
    cases hc : T.register c with
    | error d => rw [hc] at h; cases h
    | ok T₁ =>
      rw [hc] at h
      obtain ⟨hcs, hnodup, hmem⟩ := ih h
      have hne : ∀ d ∈ cs, ¬ (d.nonterminal = c.nonterminal ∧ d.terminal = c.terminal) := by
        intro d hd hdc
        have := hcs d hd
        rw [get?_of_register hc, if_pos hdc] at this
        cases this
      refine ⟨?_, ?_, fun A t i => ?_⟩
      · intro d hd
        rcases List.mem_cons.1 hd with rfl | hd
        · exact get?_eq_none_of_register hc
        · rw [← hcs d hd, get?_of_register hc, if_neg (hne d hd)]
      · refine List.nodup_cons.2 ⟨fun hmem => ?_, hnodup⟩
        obtain ⟨d, hd, hkey⟩ := List.mem_map.1 hmem
        exact hne d hd (by simpa [Cell.key] using hkey)
      · rw [hmem, get?_register_iff hc, List.mem_cons, or_assoc]

/-- **A table of claims** is made only if no place is claimed twice, and holds exactly the
claims. -/
theorem ofClaims_eq_ok {cs : List Cell} (h : ofClaims cs = .ok T) :
    (cs.map Cell.key).Nodup ∧ ∀ A t i, T.get? A t = some i ↔ ⟨A, t, i⟩ ∈ cs := by
  obtain ⟨-, hnodup, hmem⟩ := foldlM_register_eq_ok h
  refine ⟨hnodup, fun A t i => ?_⟩
  rw [hmem]
  simp [empty, get?]

theorem cells_foldlM_register {cs : List Cell} (h : cs.foldlM register T = .ok T') :
    T'.cells = T.cells ++ cs := by
  induction cs generalizing T with
  | nil =>
    cases h
    exact (List.append_nil _).symm
  | cons c cs ih =>
    rw [List.foldlM_cons] at h
    cases hc : T.register c with
    | error d => rw [hc] at h; cases h
    | ok T₁ =>
      rw [hc] at h
      have hcells : T₁.cells = T.cells ++ [c] := by
        unfold register at hc
        split at hc
        · cases hc
        · cases hc
          rfl
      rw [ih h, hcells, List.append_assoc, List.singleton_append]

theorem cells_ofClaims {cs : List Cell} (h : ofClaims cs = .ok T) : T.cells = cs :=
  cells_foldlM_register h

end Table

theorem Facts.mem_claimed {F : Facts} {A t : ℕ} {body : List ℕ} : t ∈ F.claimed A body ↔
    t ∈ F.firstSeq body ∨ (F.isNullableSeq body = true ∧ t ∈ F.followOf A) := by
  rw [claimed, List.mem_append]
  split <;> simp_all [IndexSet.mem_iff]

namespace NumberedGrammar

variable {g : NumberedGrammar} {F : Facts} {T : Table} {A t i : ℕ}

theorem mem_claims : (⟨A, t, i⟩ : Cell) ∈ g.claims F ↔
    ∃ body, (g.bodies A)[i]? = some body ∧ t ∈ F.claimed A body := by
  simp only [claims, List.mem_flatMap, Prod.exists, List.mk_mem_zipIdx_iff_getElem?, List.mem_map,
    Cell.mk.injEq]
  constructor
  · rintro ⟨bodies, B, hB, body, j, hj, t', ht', rfl, rfl, rfl⟩
    refine ⟨body, ?_, ht'⟩
    rw [NumberedGrammar.bodies, List.getD_eq_getElem?_getD, hB]
    exact hj
  · rintro ⟨body, hbody, ht⟩
    exact ⟨g.bodies A, A, getElem?_productions (List.mem_of_getElem? hbody), body, i, hbody, t, ht,
      rfl, rfl, rfl⟩

theorem map_key_claims : (g.claims F).map Cell.key =
    g.productions.zipIdx.flatMap fun (bodies, A) =>
      (bodies.flatMap (F.claimed A)).map fun t => (A, t) := by
  simp only [claims, List.map_flatMap, List.map_map]
  refine List.flatMap_congr fun row _ => ?_
  conv_rhs => rw [← List.zipIdx_map_fst 0 row.1, List.flatMap_map]
  rfl

theorem nodup_claims_iff : ((g.claims F).map Cell.key).Nodup ↔
    ∀ A, ((g.bodies A).flatMap (F.claimed A)).Nodup := by
  rw [map_key_claims, List.nodup_flatMap]
  constructor
  · rintro ⟨hrows, -⟩ A
    by_cases hbodies : g.bodies A = []
    · rw [hbodies]
      exact .nil
    · obtain ⟨body, hbody⟩ := List.exists_mem_of_ne_nil _ hbodies
      have hA := List.mk_mem_zipIdx_iff_getElem?.2 (getElem?_productions hbody)
      exact (hrows _ hA).of_map
  · intro hnodup
    refine ⟨fun ⟨bodies, A⟩ hA => ?_, (pairwise_snd_zipIdx _ 0).imp fun hlt => ?_⟩
    · have hbodies : g.bodies A = bodies := by
        rw [NumberedGrammar.bodies, List.getD_eq_getElem?_getD,
          List.mk_mem_zipIdx_iff_getElem?.1 hA, Option.getD_some]
      exact (hbodies ▸ hnodup A).map fun t t' h => (Prod.mk.inj h).2
    · intro p hp hp'
      obtain ⟨_, -, rfl⟩ := List.mem_map.1 hp
      obtain ⟨_, -, h⟩ := List.mem_map.1 hp'
      exact absurd (Prod.mk.inj h).1 (Nat.ne_of_gt hlt)

theorem ofClaims_of_table (h : g.table F = .ok T) : Table.ofClaims (g.claims F) = .ok T := by
  unfold table at h
  cases hT : Table.ofClaims (g.claims F) with
  | error c => rw [hT] at h; cases h
  | ok T' => rw [hT] at h; cases h; rfl

theorem cells_of_table (h : g.table F = .ok T) : (T.cells.map Cell.key).Nodup ∧
    ∀ A t i, (⟨A, t, i⟩ : Cell) ∈ T.cells ↔ T.get? A t = some i := by
  have hclaims := ofClaims_of_table h
  obtain ⟨hnodup, hget⟩ := Table.ofClaims_eq_ok hclaims
  rw [Table.cells_ofClaims hclaims]
  exact ⟨hnodup, fun A t i => (hget A t i).symm⟩

/-- **The table of a grammar** is made only if no production claims a terminal twice, and holds for
each nonterminal and terminal the production that claims it. -/
theorem table_eq_ok (h : g.table F = .ok T) :
    (∀ A, ∀ body ∈ g.bodies A, (F.claimed A body).Nodup) ∧ ∀ A t i, T.get? A t = some i ↔
      ∃ body, (g.bodies A)[i]? = some body ∧ t ∈ F.claimed A body := by
  obtain ⟨hnodup, hget⟩ := Table.ofClaims_eq_ok (ofClaims_of_table h)
  refine ⟨fun A => (List.nodup_flatMap.1 (nodup_claims_iff.1 hnodup A)).1, fun A t i => ?_⟩
  rw [hget, mem_claims]

theorem body_of_get? (hT : g.table F = .ok T) (h : T.get? A t = some i) :
    g.body A i ∈ g.bodies A ∧ t ∈ F.claimed A (g.body A i) := by
  obtain ⟨body, hi, ht⟩ := ((table_eq_ok hT).2 A t i).1 h
  have hbody : g.body A i = body := by
    rw [NumberedGrammar.body, List.getD_eq_getElem?_getD, hi, Option.getD_some]
  rw [hbody]
  exact ⟨List.mem_of_getElem? hi, ht⟩

end NumberedGrammar

end PredictiveParsing
