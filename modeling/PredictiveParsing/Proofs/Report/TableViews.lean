import Mathlib
import PredictiveParsing.Answer
import PredictiveParsing.Proofs.Derivations
import PredictiveParsing.Proofs.Grammar.Printing
import PredictiveParsing.Proofs.Numbering.SymbolTable
import PredictiveParsing.Proofs.Report.Rows
import PredictiveParsing.Proofs.Table.Prediction

/-!
# The views of a table

A table is read by the numbers of its symbols, by their names, and by the place of a cell in the
laid out table. All three give the same production for a nonterminal and a terminal, and none of
them has a cell more or less: different symbols have different names, and every cell is in the row
of a nonterminal and in the column of a terminal.

* `Table.Fits`: the cells are in the rows and columns of a grammar; `fits_of_compiled`;
* `lookup_filledRow`, `lookup_transitions`: the filled cells by name; `lookup_grid`: the laid out
  table by name;
* `filledPlaces_perm`, **`sum_length_transitions`**: all cells, row by row;
* **`bodyText_inj`**: productions that look alike are the same;
* **`viewsAgree_of_compile`**: the views of the table of a grammar.
-/

namespace PredictiveParsing

/-! ## Cells in rows and columns -/

/-- Every cell of the table has a place of its own, in the row of a nonterminal and in the column of
a terminal, and holds a production of the nonterminal. -/
structure Table.Fits (T : Table) (g : NumberedGrammar) : Prop where
  nodup_keys : (T.cells.map Cell.key).Nodup
  mem_cells_iff : ∀ A t i, (⟨A, t, i⟩ : Cell) ∈ T.cells ↔ T.get? A t = some i
  range : ∀ A t i, T.get? A t = some i →
    A < g.nonterminals.length ∧ t ∈ g.terminalRange ∧ i < (g.bodies A).length

namespace NumberedGrammar

variable {g : NumberedGrammar} {A t : ℕ} {body : List ℕ}

theorem mem_terminalRange_of_predicts (hg : ∀ A, ∀ body ∈ g.bodies A, ∀ i ∈ body, i < g.size)
    (hbody : body ∈ g.bodies A) (h : g.Predicts A body t) : t ∈ g.terminalRange := by
  have hderives : ∀ {as bs : List ℕ}, g.Derives as bs → (∀ i ∈ as, i < g.size) →
      ∀ i ∈ bs, i < g.size :=
    Derives.forall_mem fun B body hr => hg B body (mem_rules.1 hr)
  rw [mem_terminalRange, Nat.not_lt, ← isTerminal_iff]
  rcases h with ⟨hterm, rest, hder⟩ | ⟨-, hterm, N, hN, before, after, hder⟩
  · exact ⟨hterm, hderives hder (hg A body hbody) t List.mem_cons_self⟩
  · refine ⟨hterm, hderives hder (fun i hi => ?_) t (by simp)⟩
    rw [List.mem_singleton.1 hi]
    exact lt_size_of_lt hN

end NumberedGrammar

namespace Grammar

variable {g : Grammar} {p : Parser} {s : Char}

/-- **The cells of a compiled table** are in the rows and columns of its grammar. -/
theorem fits_of_compiled (hs : g.start? = some s) (hgrammar : p.grammar = g.number s)
    (hp : p.Compiled) : p.table.Fits p.grammar := by
  have hsymbols : ∀ A, ∀ body ∈ p.grammar.bodies A, ∀ i ∈ body, i < p.grammar.size := by
    rw [hgrammar]
    exact fun A body hbody i hi => ((isNumbering_number hs).symbols_lt A body hbody i hi).1
  obtain ⟨hnodup, hmem⟩ := NumberedGrammar.cells_of_table hp.table_eq
  refine ⟨hnodup, hmem, fun A t i hget => ?_⟩
  obtain ⟨body, hi, ht⟩ := hp.get?_eq_some_iff.1 hget
  have hbody := List.mem_of_getElem? hi
  have hA := hp.lt_of_mem_rules (NumberedGrammar.mem_rules.2 hbody)
  rw [hp.facts_eq, NumberedGrammar.mem_claimed_iff_predicts hp.wellFormed hA] at ht
  exact ⟨hA, NumberedGrammar.mem_terminalRange_of_predicts hsymbols hbody ht,
    (List.getElem?_eq_some_iff.1 hi).1⟩

end Grammar

/-! ## Cells by name -/

namespace NumberedGrammar

variable {g : NumberedGrammar} {T : Table} {A t : ℕ} {text : Text}

theorem mem_filledRow {e : Text × Text} : e ∈ g.filledRow T A ↔
    ∃ t ∈ g.terminalRange, ∃ text, g.cellText? T A t = some text ∧ (g.nameOf t, text) = e := by
  simp only [filledRow, mem_sortOn, List.mem_filterMap, Option.map_eq_some_iff]

theorem lookup_filledRow (hnodup : g.names.Nodup) (ht : t ∈ g.terminalRange) :
    (g.filledRow T A).lookup (g.nameOf t) = g.cellText? T A t := by
  refine Option.ext fun text => ?_
  rw [lookup_eq_some_iff (nodup_map_fst_filledRow hnodup T A), mem_filledRow]
  constructor
  · rintro ⟨t', ht', text', hcell, heq⟩
    obtain ⟨hname, rfl⟩ := Prod.mk.inj heq
    obtain rfl := nameOf_inj hnodup (mem_terminalRange.1 ht').2 (mem_terminalRange.1 ht).2 hname
    exact hcell
  · exact fun hcell => ⟨t, ht, text, hcell, rfl⟩

theorem mem_transitions {row : Text × List (Text × Text)} : row ∈ g.transitions T ↔
    ∃ A < g.nonterminals.length, (g.nameOf A, g.filledRow T A) = row := by
  rw [transitions_eq_sortOn, map_zipIdx_nonterminals]
  simp only [mem_sortOn, List.mem_map, List.mem_range]

theorem lookup_transitions (hnodup : g.names.Nodup) (hA : A < g.nonterminals.length) :
    (g.transitions T).lookup (g.nameOf A) = some (g.filledRow T A) := by
  rw [lookup_eq_some_iff (nodup_map_fst_transitions hnodup T)]
  exact mem_transitions.2 ⟨A, hA, rfl⟩

theorem pairwise_lt_transitions (hnodup : g.names.Nodup) :
    ((g.transitions T).map Prod.fst).Pairwise (· < ·) ∧
      ∀ row ∈ g.transitions T, (row.2.map Prod.fst).Pairwise (· < ·) := by
  refine ⟨pairwise_lt_sortOn (nodup_map_sortOn_iff.1 (nodup_map_fst_transitions hnodup T)), ?_⟩
  intro row hrow
  obtain ⟨A, -, rfl⟩ := mem_transitions.1 hrow
  exact pairwise_lt_sortOn (nodup_map_sortOn_iff.1 (nodup_map_fst_filledRow hnodup T A))

/-! ## The number of cells -/

/-- The places that are filled, row by row. -/
def filledPlaces (g : NumberedGrammar) (T : Table) : List (ℕ × ℕ) :=
  (List.range g.nonterminals.length ×ˢ g.terminalRange).filter fun place =>
    (T.get? place.1 place.2).isSome

theorem filledPlaces_perm (hT : T.Fits g) : (g.filledPlaces T).Perm (T.cells.map Cell.key) := by
  have hplaces : (g.filledPlaces T).Nodup :=
    (List.nodup_range.product List.nodup_range').filter _
  refine (List.perm_ext_iff_of_nodup hplaces hT.nodup_keys).2 fun ⟨A, t⟩ => ?_
  rw [filledPlaces, List.mem_filter, List.mem_product, List.mem_range, List.mem_map]
  constructor
  · rintro ⟨-, hfilled⟩
    obtain ⟨i, hi⟩ := Option.isSome_iff_exists.1 hfilled
    exact ⟨⟨A, t, i⟩, (hT.mem_cells_iff A t i).2 hi, rfl⟩
  · rintro ⟨⟨A', t', i⟩, hcell, hkey⟩
    obtain ⟨rfl, rfl⟩ := Prod.mk.inj hkey
    have hget := (hT.mem_cells_iff A' t' i).1 hcell
    obtain ⟨hA, ht, -⟩ := hT.range A' t' i hget
    exact ⟨⟨hA, ht⟩, Option.isSome_of_eq_some hget⟩

theorem length_filledPlaces : (g.filledPlaces T).length =
    ((List.range g.nonterminals.length).map fun A => (g.filledRow T A).length).sum := by
  have hrow : ∀ A, (g.filledRow T A).length =
      g.terminalRange.countP fun t => (T.get? A t).isSome := by
    intro A
    have hlength := map_fst_filledRow_perm (g := g) (T := T) (A := A).length_eq
    rwa [List.length_map, List.length_map, ← List.countP_eq_length_filter] at hlength
  simp only [filledPlaces, hrow, ← List.countP_eq_length_filter]
  show List.countP _ (List.flatMap _ _) = _
  rw [List.countP_flatMap]
  refine congrArg List.sum (List.map_congr_left fun A _ => ?_)
  rw [Function.comp_apply, List.countP_map]
  rfl

/-- **No cell is lost:** the rows have as many entries as the table has cells. -/
theorem sum_length_transitions (hT : T.Fits g) :
    ((g.transitions T).map fun row => row.2.length).sum = T.size := by
  rw [transitions_eq_sortOn, ((sortOn_perm _ _).map _).sum_eq, map_zipIdx_nonterminals,
    List.map_map]
  exact length_filledPlaces.symm.trans ((filledPlaces_perm hT).length_eq.trans (List.length_map _))

/-! ## The laid out table -/

theorem map_fst_rows_grid : (g.grid T).rows.map Prod.fst = g.nonterminals := by
  rw [grid, List.map_map]
  exact List.zipIdx_map_fst 0 g.nonterminals

/-- **A place of the laid out table is found by its names.** -/
theorem lookup_grid (hnodup : g.names.Nodup) (hA : A < g.nonterminals.length) :
    ∃ cells, (g.grid T).rows.lookup (g.nameOf A) = some cells ∧
      cells.length = (g.grid T).columns.length ∧
      ∀ t ∈ g.terminalRange,
        ((g.grid T).columns.zip cells).lookup (g.nameOf t) = some (g.cellText? T A t) := by
  have hcolumns : (g.grid T).columns = g.terminalRange.map g.nameOf := map_nameOf_terminalRange.symm
  have hnames : (g.terminalRange.map g.nameOf).Nodup :=
    map_nameOf_terminalRange ▸ nodup_terminals hnodup
  refine ⟨g.terminalRange.map (g.cellText? T A), ?_, by simp [hcolumns], fun t ht => ?_⟩
  · have hkeys := map_fst_rows_grid (T := T).symm ▸ nodup_nonterminals hnodup
    rw [lookup_eq_some_iff hkeys, grid, map_zipIdx_nonterminals]
    exact List.mem_map.2 ⟨A, List.mem_range.2 hA, rfl⟩
  · rw [hcolumns, List.zip_map', lookup_eq_some_iff (by rwa [List.map_map])]
    exact List.mem_map.2 ⟨t, ht, rfl⟩

end NumberedGrammar

/-! ## All views -/

/-- The views of a parser's table agree. By the names of a nonterminal and a terminal the
transitions and the laid out table give the production that the table has for their numbers; there
is one row for each nonterminal and one column for each terminal, and there are as many entries as
cells. Productions of one nonterminal that look alike are the same. -/
structure Parser.ViewsAgree (p : Parser) : Prop where
  nodup_names : p.grammar.names.Nodup
  fits : p.table.Fits p.grammar
  lookup_transitions : ∀ A < p.grammar.nonterminals.length, ∃ row,
    p.transitions.lookup (p.grammar.nameOf A) = some row ∧ ∀ t ∈ p.grammar.terminalRange,
      row.lookup (p.grammar.nameOf t) =
        (p.table.get? A t).map fun i => p.grammar.bodyText (p.grammar.body A i)
  map_fst_transitions : (p.transitions.map Prod.fst).Perm p.grammar.nonterminals
  pairwise_transitions : (p.transitions.map Prod.fst).Pairwise (· < ·) ∧
    ∀ row ∈ p.transitions, (row.2.map Prod.fst).Pairwise (· < ·)
  sum_length_transitions : (p.transitions.map fun row => row.2.length).sum = p.table.size
  lookup_grid : ∀ A < p.grammar.nonterminals.length, ∃ cells,
    p.grid.rows.lookup (p.grammar.nameOf A) = some cells ∧ cells.length = p.grid.columns.length ∧
      ∀ t ∈ p.grammar.terminalRange, (p.grid.columns.zip cells).lookup (p.grammar.nameOf t) =
        some ((p.table.get? A t).map fun i => p.grammar.bodyText (p.grammar.body A i))
  names_grid : p.grid.columns = p.grammar.terminals ∧
    p.grid.rows.map Prod.fst = p.grammar.nonterminals
  bodyText_inj : ∀ A, ∀ body ∈ p.grammar.bodies A, ∀ body' ∈ p.grammar.bodies A,
    p.grammar.bodyText body = p.grammar.bodyText body' → body = body'

namespace Grammar

variable {g : Grammar} {p : Parser} {s : Char}

/-- **Productions that look alike are the same**, if they are of one nonterminal. -/
theorem bodyText_inj (hs : s ∈ g.nonterminals) {A : ℕ} {body body' : List ℕ}
    (hbody : body ∈ (g.number s).bodies A) (hbody' : body' ∈ (g.number s).bodies A)
    (h : (g.number s).bodyText body = (g.number s).bodyText body') : body = body' := by
  have hne : ∀ B ∈ g.nonterminals, (g.number s).augmentedStart ≠ (g.number s).code B :=
    fun B hB => (code_ne_augmentedStart hs (Occurs.mem_names hs (Or.inl hB))).symm
  rcases (mem_bodies_iff hs).1 hbody with ⟨rfl, rfl⟩ | ⟨B, hB, rfl, right, hright, rfl⟩ <;>
    rcases (mem_bodies_iff hs).1 hbody' with ⟨hA, rfl⟩ | ⟨B', hB', hA, right', hright', rfl⟩
  · rfl
  · exact absurd hA (hne B' hB')
  · exact absurd hA.symm (hne B hB)
  · obtain rfl := (NumberedGrammar.code_inj (Occurs.mem_names hs (Or.inl hB))
      (Occurs.mem_names hs (Or.inl hB'))).1 hA
    rw [bodyText_map_code hs hright, bodyText_map_code hs hright'] at h
    rw [← filter_ne_epsilon_shown (epsilon_notMem_of_mem_productions hright), h,
      filter_ne_epsilon_shown (epsilon_notMem_of_mem_productions hright')]

theorem getLast?_stages (h : g.compile = .ok p) :
    g.compilation.stages.getLast? = some (.tabulated p.table.size) := by
  unfold compile at h
  unfold compilation at h ⊢
  cases hn : g.number? with
  | none => rw [hn] at h; cases h
  | some n =>
    rw [hn] at h
    simp only [NumberedGrammar.compilation] at h ⊢
    cases hT : n.table (n.analyze n.noFacts).1 with
    | error e => rw [hT] at h; cases h
    | ok T =>
      rw [hT] at h
      cases h
      exact List.getLast?_concat

/-- **The views of a table agree**, for every grammar that compiles, and the number of its cells is
what is logged last. -/
theorem viewsAgree_of_compile (h : g.compile = .ok p) :
    p.ViewsAgree ∧ g.compilation.stages.getLast? = some (.tabulated p.table.size) := by
  obtain ⟨s, hs, hgrammar, hp⟩ := compile_eq_ok h
  have hmem := start_mem_nonterminals hs
  have hnodup : p.grammar.names.Nodup := hgrammar ▸ names_nodup hmem
  have hfits := fits_of_compiled hs hgrammar hp
  refine ⟨⟨hnodup, hfits, fun A hA => ?_, NumberedGrammar.map_fst_transitions_perm,
    NumberedGrammar.pairwise_lt_transitions hnodup, NumberedGrammar.sum_length_transitions hfits,
    fun A hA => NumberedGrammar.lookup_grid hnodup hA, ⟨rfl, NumberedGrammar.map_fst_rows_grid⟩,
    fun A body hbody body' hbody' => ?_⟩, getLast?_stages h⟩
  · exact ⟨_, NumberedGrammar.lookup_transitions hnodup hA, fun t ht =>
      NumberedGrammar.lookup_filledRow hnodup ht⟩
  · rw [hgrammar] at hbody hbody' ⊢
    exact Grammar.bodyText_inj hmem hbody hbody'

/-- A prime as a terminal beside the primed start symbol, `$` inside a production, and an empty
production. -/
def quoted : Grammar where
  rules := [.ofText ⟨'G', by decide, by decide⟩ ['\'', 'H', '$'],
    .ofText ⟨'H', by decide, by decide⟩ [], .ofText ⟨'H', by decide, by decide⟩ ['x', 'H']]

/-- No row and no column is taken for another one. -/
theorem viewsAgree_of_compile_quoted : ∃ p, quoted.compile = .ok p ∧ p.ViewsAgree ∧
    quoted.compilation.stages.getLast? = some (.tabulated 4) ∧
    p.transitions = [(['G'], [(['\''], ['\'', 'H', '$'])]), (['G', '\''], [(['\''], ['G', '$'])]),
      (['H'], [(['$'], ['ε']), (['x'], ['x', 'H'])])] := by
  obtain ⟨p, hp⟩ := exists_compile (g := quoted) (by decide +kernel)
  obtain ⟨hviews, hlog⟩ := viewsAgree_of_compile hp
  have hsize : quoted.compile.toOption.map (·.table.size) = some 4 := by decide +kernel
  have htransitions : quoted.compile.toOption.map Parser.transitions =
      some [(['G'], [(['\''], ['\'', 'H', '$'])]), (['G', '\''], [(['\''], ['G', '$'])]),
        (['H'], [(['$'], ['ε']), (['x'], ['x', 'H'])])] := by
    decide +kernel
  rw [hp] at hsize htransitions
  have hsize : p.table.size = 4 := Option.some.inj hsize
  exact ⟨p, hp, hviews, hsize ▸ hlog, Option.some.inj htransitions⟩

end Grammar

end PredictiveParsing
