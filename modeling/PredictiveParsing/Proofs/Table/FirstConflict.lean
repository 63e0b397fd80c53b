import Mathlib
import PredictiveParsing.Proofs.Table

/-!
# The first conflict

A grammar has a table under some facts iff no nonterminal claims a terminal twice. Otherwise the
error names the first claim, in the order of nonterminals, productions and positions, that repeats
an earlier one.

* `ofClaims_eq_error_iff`: claims taken one by one fail at the first one whose place is taken;
* `Claim`, `Claim.Precedes`, `Claim.IsFirstConflict`: claims with their places in the order;
* `placedClaims`, `pairwise_placedClaims`: all claims in their order;
* **`table_exact`**: the table of a grammar, or its first conflict.
-/

namespace PredictiveParsing

/-! ## Claims taken one by one -/

namespace Table

variable {T : Table} {c : Cell} {cs : List Cell}

theorem isSome_get?_iff (h : ofClaims cs = .ok T) :
    (T.get? c.nonterminal c.terminal).isSome = true ↔ c.key ∈ cs.map Cell.key := by
  rw [Option.isSome_iff_exists, List.mem_map]
  constructor
  · rintro ⟨i, hi⟩
    exact ⟨_, ((ofClaims_eq_ok h).2 _ _ _).1 hi, rfl⟩
  · rintro ⟨⟨A, t, i⟩, hd, hkey⟩
    obtain ⟨rfl, rfl⟩ := Prod.mk.inj hkey
    exact ⟨i, ((ofClaims_eq_ok h).2 _ _ _).2 hd⟩

theorem exists_of_foldlM_register_eq_error (h : cs.foldlM register T = .error c) :
    ∃ before after T', cs = before ++ c :: after ∧ before.foldlM register T = .ok T' ∧
      (T'.get? c.nonterminal c.terminal).isSome = true := by
  induction cs generalizing T with
  | nil => cases h
  | cons d cs ih =>
    rw [List.foldlM_cons] at h
    cases hd : T.register d with
    | error e =>
      rw [hd] at h
      obtain rfl : e = c := Except.error.inj h
      obtain ⟨htaken, rfl⟩ := register_eq_error_iff.1 hd
      exact ⟨[], cs, T, rfl, rfl, htaken⟩
    | ok T₁ =>
      rw [hd] at h
      obtain ⟨before, after, T', rfl, hbefore, htaken⟩ := ih h
      refine ⟨d :: before, after, T', rfl, ?_, htaken⟩
      rw [List.foldlM_cons, hd]
      exact hbefore

theorem exists_of_ofClaims_eq_error (h : ofClaims cs = .error c) :
    ∃ before after, cs = before ++ c :: after ∧ (before.map Cell.key).Nodup ∧
      c.key ∈ before.map Cell.key := by
  obtain ⟨before, after, T, hcs, hbefore, htaken⟩ := exists_of_foldlM_register_eq_error h
  exact ⟨before, after, hcs, (ofClaims_eq_ok hbefore).1, (isSome_get?_iff hbefore).1 htaken⟩

theorem exists_ofClaims_iff : (∃ T, ofClaims cs = .ok T) ↔ (cs.map Cell.key).Nodup := by
  refine ⟨fun ⟨T, h⟩ => (ofClaims_eq_ok h).1, fun hnodup => ?_⟩
  cases h : ofClaims cs with
  | ok T => exact ⟨T, rfl⟩
  | error c =>
    obtain ⟨before, after, rfl, -, hmem⟩ := exists_of_ofClaims_eq_error h
    rw [List.map_append, List.map_cons] at hnodup
    exact absurd List.mem_cons_self (List.disjoint_of_nodup_append hnodup hmem)

/-- **The claim that fails** is the first one to a place that is claimed before. -/
theorem ofClaims_eq_error_iff : ofClaims cs = .error c ↔
    ∃ before after, cs = before ++ c :: after ∧ (before.map Cell.key).Nodup ∧
      c.key ∈ before.map Cell.key := by
  refine ⟨exists_of_ofClaims_eq_error, ?_⟩
  rintro ⟨before, after, rfl, hnodup, hmem⟩
  obtain ⟨T, hT⟩ := exists_ofClaims_iff.2 hnodup
  have hc : T.register c = .error c :=
    register_eq_error_iff.2 ⟨(isSome_get?_iff hT).2 hmem, rfl⟩
  rw [ofClaims] at hT ⊢
  rw [List.foldlM_append, hT]
  change (c :: after).foldlM register T = .error c
  rw [List.foldlM_cons, hc]
  rfl

end Table

/-! ## Lists in order -/

section Ordered

variable {α β : Type} {r : α → α → Prop} {x y : α} {xs before after : List α}

theorem mem_before_iff (hr : ∀ x y, r x y → ¬ r y x) (h : (before ++ x :: after).Pairwise r) :
    y ∈ before ↔ y ∈ before ++ x :: after ∧ r y x := by
  obtain ⟨-, hafter, hbefore⟩ := List.pairwise_append.1 h
  refine ⟨fun hy => ⟨List.mem_append_left _ hy, hbefore y hy x List.mem_cons_self⟩, ?_⟩
  rintro ⟨hy, hyx⟩
  rcases List.mem_append.1 hy with hy | hy
  · exact hy
  · rcases List.mem_cons.1 hy with rfl | hy
    · exact absurd hyx (hr y y hyx)
    · exact absurd hyx (hr x y ((List.pairwise_cons.1 hafter).1 y hy))

theorem nodup_map_iff_of_pairwise (hr : ∀ x y, r x y → ¬ r y x) (h : xs.Pairwise r) (key : α → β) :
    (xs.map key).Nodup ↔ ∀ x ∈ xs, ∀ y ∈ xs, r x y → key x ≠ key y := by
  rw [List.Nodup, List.pairwise_map]
  constructor
  · intro hne x hx y hy hxy
    obtain ⟨i, hi, rfl⟩ := List.getElem_of_mem hx
    obtain ⟨j, hj, rfl⟩ := List.getElem_of_mem hy
    rcases Nat.lt_trichotomy i j with hij | rfl | hij
    · exact List.pairwise_iff_getElem.1 hne i j hi hj hij
    · exact absurd hxy (hr _ _ hxy)
    · exact absurd hxy (hr _ _ (List.pairwise_iff_getElem.1 h j i hj hi hij))
  · exact fun hne => h.imp_of_mem fun hx hy hxy => hne _ hx _ hy hxy

end Ordered

/-! ## Claims and their places -/

/-- A claim with its place: the terminal in a position among those that a production of a
nonterminal claims. -/
structure Claim where
  nonterminal : ℕ
  production : ℕ
  position : ℕ
  terminal : ℕ

namespace Claim

variable {made : Claim → Prop} {c d : Claim} {claims : List Claim}

/-- The cell that is claimed. -/
def cell (c : Claim) : Cell := ⟨c.nonterminal, c.terminal, c.production⟩

/-- The order of claims: by their nonterminals, then by productions, then by positions. -/
def Precedes (c d : Claim) : Prop :=
  c.nonterminal < d.nonterminal ∨ (c.nonterminal = d.nonterminal ∧
    (c.production < d.production ∨ (c.production = d.production ∧ c.position < d.position)))

/-- The claim is made, and so is an earlier one of the same nonterminal to the same terminal. -/
def Repeats (made : Claim → Prop) (c : Claim) : Prop :=
  made c ∧ ∃ d, made d ∧ d.Precedes c ∧ d.nonterminal = c.nonterminal ∧ d.terminal = c.terminal

/-- The first of the claims that repeat earlier ones. -/
def IsFirstConflict (made : Claim → Prop) (c : Claim) : Prop :=
  c.Repeats made ∧ ∀ d : Claim, d.Repeats made → ¬ d.Precedes c

theorem Precedes.asymm (c d : Claim) (h : c.Precedes d) : ¬ d.Precedes c := by
  unfold Precedes at h ⊢
  omega

theorem Precedes.trans {e : Claim} (h : c.Precedes d) (h' : d.Precedes e) : c.Precedes e := by
  unfold Precedes at h h' ⊢
  omega

theorem key_cell_eq_iff :
    d.cell.key = c.cell.key ↔ d.nonterminal = c.nonterminal ∧ d.terminal = c.terminal :=
  Prod.mk_inj

/-- **Where ordered claims are split by the first conflict**, the claims before it are to different
places, and one of them is to the place of the conflict. -/
theorem isFirstConflict_iff {before after : List Claim}
    (h : (before ++ c :: after).Pairwise Precedes) :
    IsFirstConflict (· ∈ before ++ c :: after) c ↔
      (before.map fun d => d.cell.key).Nodup ∧ c.cell.key ∈ before.map fun d => d.cell.key := by
  have hmem : ∀ d, d ∈ before ↔ d ∈ before ++ c :: after ∧ d.Precedes c :=
    fun d => mem_before_iff Precedes.asymm h
  have hbefore := (List.pairwise_append.1 h).1
  rw [nodup_map_iff_of_pairwise Precedes.asymm hbefore, List.mem_map]
  constructor
  · rintro ⟨⟨-, d, hd, hdc, hkey⟩, hfirst⟩
    refine ⟨fun e he d hd hed heq => ?_, d, (hmem d).2 ⟨hd, hdc⟩, key_cell_eq_iff.2 hkey⟩
    obtain ⟨hd, hdc⟩ := (hmem d).1 hd
    exact hfirst d ⟨hd, e, ((hmem e).1 he).1, hed, key_cell_eq_iff.1 heq⟩ hdc
  · rintro ⟨hne, d, hd, hkey⟩
    refine ⟨⟨by simp, d, ((hmem d).1 hd).1, ((hmem d).1 hd).2, key_cell_eq_iff.1 hkey⟩, ?_⟩
    rintro d ⟨hd, e, he, hed, hkey⟩ hdc
    have hd' := (hmem d).2 ⟨hd, hdc⟩
    have he' := (hmem e).2 ⟨he, hed.trans hdc⟩
    exact hne e he' d hd' hed (key_cell_eq_iff.2 hkey)

/-- **Claims taken in their order** fail at the first conflict. -/
theorem ofClaims_eq_error_iff (h : claims.Pairwise Precedes) {cell : Cell} :
    Table.ofClaims (claims.map Claim.cell) = .error cell ↔
      ∃ c, IsFirstConflict (· ∈ claims) c ∧ c.cell = cell := by
  rw [Table.ofClaims_eq_error_iff]
  constructor
  · rintro ⟨cells, cells', hsplit, hnodup, hmem⟩
    obtain ⟨before, rest, rfl, rfl, hrest⟩ := List.map_eq_append_iff.1 hsplit
    obtain ⟨c, after, rfl, rfl, rfl⟩ := List.map_eq_cons_iff.1 hrest
    rw [List.map_map] at hnodup hmem
    exact ⟨c, (isFirstConflict_iff h).2 ⟨hnodup, hmem⟩, rfl⟩
  · rintro ⟨c, hc, rfl⟩
    obtain ⟨before, after, rfl⟩ := List.append_of_mem hc.1.1
    obtain ⟨hnodup, hmem⟩ := (isFirstConflict_iff h).1 hc
    refine ⟨before.map Claim.cell, after.map Claim.cell, by simp, ?_⟩
    rw [List.map_map]
    exact ⟨hnodup, hmem⟩

end Claim

namespace NumberedGrammar

variable {g : NumberedGrammar} {F : Facts} {c : Claim}

/-- The grammar makes the claim under the facts: it has the production, and the terminal stands in
that position among those that the production claims. -/
def Makes (g : NumberedGrammar) (F : Facts) (c : Claim) : Prop :=
  ∃ body, (g.bodies c.nonterminal)[c.production]? = some body ∧
    (F.claimed c.nonterminal body)[c.position]? = some c.terminal

/-- All claims with their places. -/
def placedClaims (g : NumberedGrammar) (F : Facts) : List Claim :=
  g.productions.zipIdx.flatMap fun (bodies, A) =>
    bodies.zipIdx.flatMap fun (body, i) =>
      (F.claimed A body).zipIdx.map fun (t, k) => ⟨A, i, k, t⟩

theorem map_cell_placedClaims : (g.placedClaims F).map Claim.cell = g.claims F := by
  simp only [placedClaims, claims, List.map_flatMap, List.map_map]
  refine List.flatMap_congr fun row _ => List.flatMap_congr fun entry _ => ?_
  conv_rhs => rw [← List.zipIdx_map_fst 0 (F.claimed row.2 entry.1), List.map_map]
  rfl

theorem mem_placedClaims : c ∈ g.placedClaims F ↔ g.Makes F c := by
  obtain ⟨A, i, k, t⟩ := c
  simp only [placedClaims, Makes, List.mem_flatMap, List.mem_map, Prod.exists,
    List.mk_mem_zipIdx_iff_getElem?, Claim.mk.injEq]
  constructor
  · rintro ⟨bodies, A, hA, body, i, hi, t, k, hk, rfl, rfl, rfl, rfl⟩
    refine ⟨body, ?_, hk⟩
    rw [NumberedGrammar.bodies, List.getD_eq_getElem?_getD, hA]
    exact hi
  · rintro ⟨body, hi, hk⟩
    exact ⟨_, A, getElem?_productions (List.mem_of_getElem? hi), body, i, hi, t, k, hk, rfl, rfl,
      rfl, rfl⟩

theorem pairwise_placedClaims : (g.placedClaims F).Pairwise Claim.Precedes := by
  rw [placedClaims, List.pairwise_flatMap]
  refine ⟨fun ⟨bodies, A⟩ _ => ?_, (pairwise_snd_zipIdx _ 0).imp fun hlt c hc d hd => ?_⟩
  · rw [List.pairwise_flatMap]
    refine ⟨fun ⟨body, i⟩ _ => ?_, (pairwise_snd_zipIdx _ 0).imp fun hlt c hc d hd => ?_⟩
    · rw [List.pairwise_map]
      exact (pairwise_snd_zipIdx _ 0).imp fun hlt => Or.inr ⟨rfl, Or.inr ⟨rfl, hlt⟩⟩
    · obtain ⟨x, -, rfl⟩ := List.mem_map.1 hc
      obtain ⟨y, -, rfl⟩ := List.mem_map.1 hd
      exact Or.inr ⟨rfl, Or.inl hlt⟩
  · simp only [List.mem_flatMap, List.mem_map] at hc hd
    obtain ⟨_, -, _, -, rfl⟩ := hc
    obtain ⟨_, -, _, -, rfl⟩ := hd
    exact Or.inl hlt

theorem exists_table_iff : (∃ T, g.table F = .ok T) ↔
    ∀ A, ((g.bodies A).flatMap (F.claimed A)).Nodup := by
  rw [← nodup_claims_iff, ← Table.exists_ofClaims_iff, table]
  cases Table.ofClaims (g.claims F) with
  | ok T => exact iff_of_true ⟨T, rfl⟩ ⟨T, rfl⟩
  | error c => exact iff_of_false (fun ⟨_, h⟩ => nomatch h) fun ⟨_, h⟩ => nomatch h

theorem ofClaims_claims_eq_error_iff {cell : Cell} : Table.ofClaims (g.claims F) = .error cell ↔
    ∃ c, Claim.IsFirstConflict (g.Makes F) c ∧ c.cell = cell := by
  have hmade : (· ∈ g.placedClaims F) = g.Makes F := funext fun c => propext mem_placedClaims
  rw [← map_cell_placedClaims, Claim.ofClaims_eq_error_iff pairwise_placedClaims, hmade]

/-- **A grammar without a table** has a first conflict, and its error names it. -/
theorem table_eq_error_iff {e : Error} : g.table F = .error e ↔
    ∃ c, Claim.IsFirstConflict (g.Makes F) c ∧ e = g.conflict c.cell := by
  rw [table]
  constructor
  · intro h
    cases hcell : Table.ofClaims (g.claims F) with
    | ok T => rw [hcell] at h; cases h
    | error cell =>
      rw [hcell] at h
      obtain ⟨c, hc, rfl⟩ := ofClaims_claims_eq_error_iff.1 hcell
      exact ⟨c, hc, (Except.error.inj h).symm⟩
  · rintro ⟨c, hc, rfl⟩
    rw [ofClaims_claims_eq_error_iff.2 ⟨c, hc, rfl⟩]
    rfl

/-- **The table of a grammar**, under any facts, so before the analyses as well as after them. It is
made iff no nonterminal claims a terminal twice, and then holds for a nonterminal and a terminal the
production that claims it; otherwise the error names the first claim that repeats an earlier one. -/
theorem table_exact (g : NumberedGrammar) (F : Facts) :
    ((∃ T, g.table F = .ok T) ↔ ∀ A, ((g.bodies A).flatMap (F.claimed A)).Nodup) ∧
    (∀ T, g.table F = .ok T → ∀ A t i, T.get? A t = some i ↔
      ∃ body, (g.bodies A)[i]? = some body ∧ t ∈ F.claimed A body) ∧
    ∀ e, g.table F = .error e ↔ ∃ c, Claim.IsFirstConflict (g.Makes F) c ∧
      e = .ambiguous (g.nameOf c.nonterminal) (g.nameOf c.terminal)
        (g.bodyText (g.body c.nonterminal c.production)) :=
  ⟨exists_table_iff, fun _ h => (table_eq_ok h).2, fun _ => table_eq_error_iff⟩

end NumberedGrammar

/-- `E → T 0`, `T → F`, `F → 0 | ε`: in `T` and `F` can stand first what can also follow them. -/
def Grammar.doubleClaim : Grammar where
  rules := [.ofText ⟨'E', by decide, by decide⟩ ['T', '0'],
    .ofText ⟨'T', by decide, by decide⟩ ['F'], .ofText ⟨'F', by decide, by decide⟩ ['0'],
    .ofText ⟨'F', by decide, by decide⟩ []]

/-- Before the analyses this grammar has a table. After them the first conflict is that the only
production of `T` claims `0` for the second time, and not the one between the productions of `F`. -/
theorem table_exact_doubleClaim : ∃ n, Grammar.doubleClaim.number? = some n ∧
    (∃ T, n.table n.noFacts = .ok T ∧ T.get? (n.code 'F') (n.code '0') = some 0) ∧
    ∃ c, Claim.IsFirstConflict (n.Makes n.facts) c ∧ n.nameOf c.nonterminal = ['T'] ∧
      n.nameOf c.terminal = ['0'] ∧
      n.bodyText (n.body c.nonterminal c.production) = ['F'] := by
  obtain ⟨-, hget, -⟩ := (Grammar.doubleClaim.number 'E').table_exact
    (Grammar.doubleClaim.number 'E').noFacts
  obtain ⟨-, -, herror⟩ := (Grammar.doubleClaim.number 'E').table_exact
    (Grammar.doubleClaim.number 'E').facts
  have hblank : (Grammar.doubleClaim.number 'E').table (Grammar.doubleClaim.number 'E').noFacts =
      .ok ⟨[⟨2, 4, 0⟩]⟩ := by decide +kernel
  have hfacts : (Grammar.doubleClaim.number 'E').table (Grammar.doubleClaim.number 'E').facts =
      .error (.ambiguous ['T'] ['0'] ['F']) := by decide +kernel
  obtain ⟨c, hc, he⟩ := (herror _).1 hfacts
  obtain ⟨hA, ht, hbody⟩ := Error.ambiguous.inj he
  refine ⟨_, rfl, ⟨_, hblank, (hget _ hblank _ _ 0).2 ⟨_, rfl, by decide +kernel⟩⟩, c, hc, ?_⟩
  exact ⟨hA.symm, ht.symm, hbody.symm⟩

end PredictiveParsing
