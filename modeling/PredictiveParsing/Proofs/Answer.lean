import Mathlib
import PredictiveParsing.Proofs.Forest.JsonText
import PredictiveParsing.Proofs.Parser.Invariant
import PredictiveParsing.Proofs.Report.TableViews

/-!
# Reading answers

Every answer is a JSON object, and it tells whether there is a result: it has a field `error` iff
there is none, and then it has no other field. A success is not mistaken for a failure, whatever the
symbols of the grammar are, since no symbol has as long a name.

* `Reports`: what an answer tells of a result; `error?`: the message of an answer;
* `ofMap_eq`, `tableValue_eq`: the table as it is kept in order of its names;
* **`reports_table`**, **`reports_tree`**: the answers.
-/

namespace PredictiveParsing

namespace Answer

variable {α : Type} {result : Except Error α} {answer message : Text}

/-! ## Answers that are objects -/

/-- The answer is an object, which has a field `error` iff there is no result. Then it has nothing
but the message of the error. -/
def Reports (result : Except Error α) (answer : Text) : Prop :=
  ∃ fields, Json.read? answer = some (.object fields) ∧
    ("error".toList ∈ fields.map Prod.fst ↔ ∃ e, result = .error e) ∧
    ∀ e, result = .error e → fields = [("error".toList, .string e.message)]

/-- The message of an answer that has a field `error`. -/
def error? (answer : Text) : Option Text :=
  match Json.read? answer with
  | some (.object fields) =>
    match fields.lookup "error".toList with
    | some (.string message) => some message
    | _ => none
  | _ => none

theorem reports_error (e : Error) : Reports (.error e : Except Error α) (error e) := by
  refine ⟨_, Json.read?_render _, iff_of_true (by simp) ⟨e, rfl⟩, ?_⟩
  rintro _ ⟨⟩
  rfl

theorem reports_ok {fields : List (Text × Json)} (a : α)
    (h : "error".toList ∉ fields.map Prod.fst) :
    Reports (.ok a) (Json.object fields).render :=
  ⟨fields, Json.read?_render _, iff_of_false h (by rintro ⟨e, ⟨⟩⟩), by rintro e ⟨⟩⟩

theorem Reports.error?_of_error {e : Error} (h : Reports result answer)
    (hresult : result = .error e) : error? answer = some e.message := by
  obtain ⟨fields, hread, -, hfields⟩ := h
  obtain rfl := hfields e hresult
  rw [error?, hread]
  rfl

theorem Reports.error?_of_ok {a : α} (h : Reports result answer) (hresult : result = .ok a) :
    error? answer = none := by
  obtain ⟨fields, hread, hkey, -⟩ := h
  have hnotMem : "error".toList ∉ fields.map Prod.fst := by
    rw [hkey, hresult]
    rintro ⟨e, ⟨⟩⟩
  have hnone : fields.lookup "error".toList = none := by
    rw [List.lookup_eq_none_iff]
    intro field hfield
    rw [bne_iff_ne]
    intro hname
    exact hnotMem (hname ▸ List.mem_map_of_mem hfield)
  simp only [error?, hread, hnone]

theorem Reports.error?_eq_some_iff (h : Reports result answer) :
    error? answer = some message ↔ ∃ e, result = .error e ∧ e.message = message := by
  cases hresult : result with
  | error e => simp [h.error?_of_error hresult]
  | ok a => simp [h.error?_of_ok hresult]

theorem Reports.error?_eq_none_iff (h : Reports result answer) :
    error? answer = none ↔ ∃ a, result = .ok a := by
  cases hresult : result with
  | error e => simp [h.error?_of_error hresult]
  | ok a => simp [h.error?_of_ok hresult]

/-! ## The answer with a table -/

variable {g : Grammar} {p : Parser} {text input : Text}

theorem compile_of_ofText (h : Parser.ofText text = .ok p) :
    ∃ g : Grammar, g.compile = .ok p := by
  unfold Parser.ofText at h
  cases hread : Grammar.read text with
  | error e => rw [hread] at h; cases h
  | ok g => rw [hread] at h; exact ⟨g, h⟩

theorem ofMap_eq {fields : List (Text × Json)} (h : (fields.map Prod.fst).Pairwise (· < ·)) :
    Json.ofMap fields = .object fields := congrArg Json.object (sortOn_eq_self h)

/-- **The order of the names** is the one in which the cells are reported anyway. -/
theorem tableValue_eq (h : g.compile = .ok p) :
    (tableValue p).render = Report.tableJson p.transitions := by
  obtain ⟨s, hs, hgrammar, -⟩ := Grammar.compile_eq_ok h
  have hnodup : p.grammar.names.Nodup :=
    hgrammar ▸ Grammar.names_nodup (Grammar.start_mem_nonterminals hs)
  obtain ⟨hnames, hrows⟩ := NumberedGrammar.pairwise_lt_transitions (T := p.table) hnodup
  have hrow : ∀ row ∈ p.transitions,
      (row.1, Json.ofMap (row.2.map fun cell => (cell.1, .string cell.2))) =
        (row.1, .object (row.2.map fun cell => (cell.1, .string cell.2))) := by
    intro row hmem
    rw [ofMap_eq]
    rw [List.map_map]
    exact hrows row hmem
  have hvalues := List.map_congr_left hrow
  refine congrArg Json.render ((congrArg Json.ofMap hvalues).trans (ofMap_eq ?_))
  rw [List.map_map]
  exact hnames

/-- **The answer for a grammar text** tells whether there is a table. -/
theorem reports_table (text : Text) : Reports (Parser.ofText text) (table text) := by
  cases hp : Parser.ofText text with
  | error e =>
    simp only [table, hp]
    exact reports_error e
  | ok p =>
    obtain ⟨g, hcompile⟩ := compile_of_ofText hp
    obtain ⟨s, hs, hgrammar, -⟩ := Grammar.compile_eq_ok hcompile
    simp only [table, hp, tableValue_eq hcompile]
    refine reports_ok p fun hmem => ?_
    rw [List.map_map] at hmem
    have hnames : "error".toList ∈ p.grammar.nonterminals :=
      NumberedGrammar.map_fst_transitions_perm.mem_iff.1 hmem
    have hlength := Grammar.length_of_mem_names (Grammar.start_mem_nonterminals hs)
      (hgrammar ▸ List.mem_append_left _ hnames)
    exact absurd hlength (by decide)

/-! ## The answer with a tree -/

theorem isTree_of_parse (h : g.compile = .ok p) {f : Forest} (hf : p.parse input = .ok f) :
    f.IsTree := by
  obtain ⟨s, hs, hgrammar, hp⟩ := Grammar.compile_eq_ok h
  obtain ⟨c, -, -, hvalid, -, rfl, -⟩ := Parser.exists_split_of_parse hp hgrammar hs hf
  exact hvalid.isTree

theorem tree_of_ok (hp : Parser.ofText text = .ok p) (input : Text) :
    tree text input = match p.parse input with
      | .ok f => f.json
      | .error e => error e := by
  rw [tree, hp]
  rfl

/-- **The answer for an input** tells whether there is a tree. -/
theorem reports_tree (text input : Text) :
    Reports ((Parser.ofText text).bind (·.parse input)) (tree text input) := by
  cases hresult : (Parser.ofText text).bind (·.parse input) with
  | error e =>
    simp only [tree, hresult]
    exact reports_error e
  | ok f =>
    simp only [tree, hresult]
    cases hp : Parser.ofText text with
    | error e => rw [hp] at hresult; cases hresult
    | ok p =>
      rw [hp] at hresult
      obtain ⟨g, hcompile⟩ := compile_of_ofText hp
      rw [(isTree_of_parse hcompile hresult).json_eq]
      cases f.tree with
      | node label children =>
        have hnotMem : "error".toList ∉ ["label".toList, "children".toList] := by decide
        rw [Tree.json_node]
        exact reports_ok f hnotMem

end Answer

end PredictiveParsing
