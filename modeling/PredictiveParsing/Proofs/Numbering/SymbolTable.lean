import Mathlib
import PredictiveParsing.Proofs.Renumbering.Symbols

/-!
# Symbols and their numbers

Numbering gives every symbol of a grammar one number and every number one symbol. The symbols are
listed in the order in which they appear, and the rules are the same ones, written in numbers.

* `FirstAppearances`: entries of a list, once and in the order of their first appearance;
  **`firstAppearances_distinct`**;
* `Grammar.mem_bodies_iff`: the productions of all nonterminals, the augmented start included;
* `Grammar.IsNumbering`: what the numbered form of a grammar keeps; `isNumbering_number`;
* **`number?_isNumbering`**: every grammar with rules has such a numbered form.
-/

namespace PredictiveParsing

/-! ## First appearances -/

section FirstAppearances

variable {α : Type} [DecidableEq α]

/-- The list `as` has each entry of `all` for which `p` holds, once and in the order in which they
first appear. -/
structure FirstAppearances (p : α → Prop) (all as : List α) : Prop where
  mem_iff : ∀ a, a ∈ as ↔ a ∈ all ∧ p a
  pairwise : as.Pairwise fun a b => all.idxOf a < all.idxOf b

/-- **Without its repetitions** a list has its entries in the order of their first appearance. -/
theorem firstAppearances_distinct (p : α → Prop) [DecidablePred p] (all : List α) :
    FirstAppearances p all (distinct (all.filter p)) := by
  refine ⟨fun a => by simp, ?_⟩
  induction all with
  | nil => exact .nil
  | cons c cs ih =>
    have hlt : ∀ {a b}, a ≠ c → b ≠ c → cs.idxOf a < cs.idxOf b →
        (c :: cs).idxOf a < (c :: cs).idxOf b := by
      intro a b ha hb hab
      rw [List.idxOf_cons_ne _ ha.symm, List.idxOf_cons_ne _ hb.symm]
      exact Nat.succ_lt_succ hab
    by_cases hc : p c
    · rw [List.filter_cons_of_pos (by simpa using hc), distinct]
      refine List.pairwise_cons.2 ⟨fun b hb => ?_, ?_⟩
      · have hb : b ≠ c := of_decide_eq_true (List.mem_filter.1 hb).2
        rw [List.idxOf_cons_self, List.idxOf_cons_ne _ hb.symm]
        exact Nat.succ_pos _
      · refine (ih.filter _).imp_of_mem fun ha hb hab => hlt ?_ ?_ hab
        · exact of_decide_eq_true (List.mem_filter.1 ha).2
        · exact of_decide_eq_true (List.mem_filter.1 hb).2
    · rw [List.filter_cons_of_neg (by simpa using hc)]
      have hne : ∀ {a}, a ∈ distinct (cs.filter p) → a ≠ c := by
        rintro a ha rfl
        exact hc (of_decide_eq_true (List.mem_filter.1 (mem_distinct.1 ha)).2)
      exact ih.imp_of_mem fun ha hb hab => hlt (hne ha) (hne hb) hab

end FirstAppearances

theorem mapM_eq_some {α β : Type} {f : α → Option β} {k : α → β} {as : List α}
    (h : ∀ a ∈ as, f a = some (k a)) : as.mapM f = some (as.map k) := by
  induction as with
  | nil => rfl
  | cons a as ih =>
    obtain ⟨ha, has⟩ := List.forall_mem_cons.1 h
    rw [List.mapM_cons, ha, ih has]
    rfl

namespace Grammar

variable {g : Grammar} {s : Char} {n : NumberedGrammar}

/-! ## The productions by number -/

/-- **The productions** are those of the nonterminals, symbol by symbol, and the one of the
augmented start. -/
theorem mem_bodies_iff (hs : s ∈ g.nonterminals) {A : ℕ} {body : List ℕ} :
    body ∈ (g.number s).bodies A ↔
      (A = (g.number s).augmentedStart ∧
        body = [(g.number s).start, (g.number s).endMark]) ∨
      ∃ B ∈ g.nonterminals, A = (g.number s).code B ∧
        ∃ right ∈ g.productions B, body = right.map (g.number s).code := by
  constructor
  · intro h
    have hlt := (wellFormed_number hs).lt_of_mem_rules (NumberedGrammar.mem_rules.2 h)
    by_cases hA : A = (g.number s).augmentedStart
    · rw [hA, bodies_augmentedStart, List.mem_singleton] at h
      exact Or.inl ⟨hA, h⟩
    · obtain ⟨B, hB, rfl⟩ := exists_code_eq hs hlt hA
      rw [bodies_code hs hB, List.mem_map] at h
      obtain ⟨right, hright, rfl⟩ := h
      exact Or.inr ⟨B, hB, rfl, right, hright, rfl⟩
  · rintro (⟨rfl, rfl⟩ | ⟨B, hB, rfl, right, hright, rfl⟩)
    · rw [bodies_augmentedStart]
      exact List.mem_singleton_self _
    · rw [bodies_code hs hB]
      exact List.mem_map_of_mem hright

theorem code_ne_augmentedStart (hs : s ∈ g.nonterminals) {c : Char}
    (hc : [c] ∈ (g.number s).names) : (g.number s).code c ≠ (g.number s).augmentedStart := by
  intro h
  have hname := getElem?_names_code hc
  rw [h, getElem?_names_augmentedStart hs, Option.some.injEq] at hname
  simp at hname

/-! ## What numbering keeps -/

/-- The numbered grammar `n` has the symbols and the rules of `g`, with the start symbol `s`. -/
structure IsNumbering (g : Grammar) (s : Char) (n : NumberedGrammar) : Prop where
  nonterminals_eq : n.nonterminals = g.nonterminals.map (fun A => [A]) ++ [[s, '\'']]
  terminals_eq : n.terminals = g.terminals.map (fun a => [a]) ++ [[PredictiveParsing.endMark]]
  nodup_names : n.names.Nodup
  indexOf?_eq_some_iff : ∀ name i, n.indexOf? name = some i ↔ n.names[i]? = some name
  indexOf?_nonterminal : ∀ name A, (name, A) ∈ n.nonterminals.zipIdx →
    n.indexOf? name = some A ∧ n.isTerminal A = false
  nameOf_start : n.nameOf n.start = [s]
  nameOf_augmentedStart : n.nameOf n.augmentedStart = [s, '\'']
  nameOf_endMark : n.nameOf n.endMark = [PredictiveParsing.endMark] ∧ n.endMark + 1 = n.size
  length_productions : n.productions.length = n.nonterminals.length
  symbols_lt : ∀ A, ∀ body ∈ n.bodies A, ∀ i ∈ body, i < n.size ∧ i ≠ n.augmentedStart
  bodies_eq : ∀ A ∈ g.nonterminals, ∃ i, n.indexOf? [A] = some i ∧
    (g.productions A).mapM (fun right => right.mapM fun c => n.indexOf? [c]) = some (n.bodies i) ∧
    (n.bodies i).map (List.map n.nameOf) = (g.productions A).map (List.map fun c => [c])
  bodies_augmentedStart : n.bodies n.augmentedStart = [[n.start, n.endMark]]

theorem exists_code_of_mem_bodies (hs : g.start? = some s) {A i : ℕ} {body : List ℕ}
    (hbody : body ∈ (g.number s).bodies A) (hi : i ∈ body) :
    ∃ c, [c] ∈ (g.number s).names ∧ i = (g.number s).code c := by
  have hmem := start_mem_nonterminals hs
  rcases (mem_bodies_iff hmem).1 hbody with ⟨-, rfl⟩ | ⟨B, -, -, right, hright, rfl⟩
  · rcases List.mem_pair.1 hi with rfl | rfl
    · exact ⟨s, Occurs.mem_names hmem (Or.inl hmem), (code_start hs).symm⟩
    · exact ⟨endMark, endMark_mem_names hmem, (code_endMark hmem).symm⟩
  · obtain ⟨c, hc, rfl⟩ := List.mem_map.1 hi
    exact ⟨c, Occurs.mem_names hmem (Or.inr ⟨B, right, hright, hc⟩), rfl⟩

section

variable (hs : s ∈ g.nonterminals)
include hs

theorem mapM_indexOf?_productions (A : Char) :
    (g.productions A).mapM (fun right => right.mapM fun c => (g.number s).indexOf? [c]) =
      some ((g.productions A).map fun right => right.map (g.number s).code) :=
  mapM_eq_some fun right hright => mapM_eq_some fun _ hc =>
    NumberedGrammar.indexOf?_code (Occurs.mem_names hs (Or.inr ⟨A, right, hright, hc⟩))

theorem map_nameOf_productions (A : Char) :
    ((g.productions A).map fun right => right.map (g.number s).code).map
        (List.map (g.number s).nameOf) = (g.productions A).map (List.map fun c => [c]) := by
  rw [List.map_map]
  refine List.map_congr_left fun right hright => ?_
  rw [Function.comp_apply, List.map_map]
  exact List.map_congr_left fun c hc =>
    NumberedGrammar.nameOf_code (Occurs.mem_names hs (Or.inr ⟨A, right, hright, hc⟩))

end

/-- **Numbering keeps the symbols and the rules.** -/
theorem isNumbering_number (hs : g.start? = some s) : g.IsNumbering s (g.number s) := by
  have hmem := start_mem_nonterminals hs
  have hnodup := names_nodup hmem
  have hend := endMark_mem_names hmem
  refine ⟨nonterminals_number hmem, rfl, hnodup, fun _ _ => idxOf?_eq_some_iff hnodup,
    fun name A hA => ?_, ?_, ?_, ⟨?_, ?_⟩, length_productions_number,
    fun A body hbody i hi => ?_, fun A hA => ?_, bodies_augmentedStart⟩
  · have hname := List.mk_mem_zipIdx_iff_getElem?.1 hA
    have hlt := (List.getElem?_eq_some_iff.1 hname).1
    refine ⟨?_, NumberedGrammar.not_isTerminal_iff.2 hlt⟩
    rw [NumberedGrammar.indexOf?, idxOf?_eq_some_iff hnodup, NumberedGrammar.names,
      List.getElem?_append_left hlt, hname]
  · rw [NumberedGrammar.start, ← code_start hs]
    exact NumberedGrammar.nameOf_code (Occurs.mem_names hmem (Or.inl hmem))
  · rw [NumberedGrammar.nameOf, List.getD_eq_getElem?_getD, getElem?_names_augmentedStart hmem,
      Option.getD_some]
  · rw [← code_endMark hmem, NumberedGrammar.nameOf_code hend]
  · exact Nat.sub_add_cancel (List.length_pos_of_mem hend)
  · obtain ⟨c, hc, rfl⟩ := exists_code_of_mem_bodies hs hbody hi
    exact ⟨List.idxOf_lt_length_of_mem hc, code_ne_augmentedStart hmem hc⟩
  · refine ⟨_, NumberedGrammar.indexOf?_code (Occurs.mem_names hmem (Or.inl hA)), ?_, ?_⟩
    · rw [bodies_code hmem hA, mapM_indexOf?_productions hmem]
    · rw [bodies_code hmem hA, map_nameOf_productions hmem]

/-- **Every grammar with rules has a numbered form.** -/
theorem number?_isNumbering (h : g.rules ≠ []) :
    ∃ s n, g.start? = some s ∧ g.number? = some n ∧ g.IsNumbering s n ∧
      FirstAppearances (fun _ => True) (g.rules.map (·.left.char)) g.nonterminals ∧
      FirstAppearances (fun c => c ≠ endMark ∧ c ∉ g.nonterminals)
        (g.nonterminals.flatMap fun A => (g.productions A).flatten) g.terminals := by
  obtain ⟨s, hs⟩ := exists_start? h
  refine ⟨s, _, hs, number?_eq_some hs, isNumbering_number hs, ?_, firstAppearances_distinct _ _⟩
  have hall := firstAppearances_distinct (fun _ => True) (g.rules.map (·.left.char))
  rwa [List.filter_eq_self.2 fun _ _ => decide_true _] at hall

/-- A prime as the start symbol, and `$` in the middle of productions. -/
def primed : Grammar where
  rules := [.ofText ⟨'\'', by decide, by decide⟩ ['M', '$', '\''],
    .ofText ⟨'M', by decide, by decide⟩ ['\'', 'x', '$'],
    .ofText ⟨'\'', by decide, by decide⟩ []]

/-- The augmented start gets a name of two primes, and `$` still the last number. -/
theorem number?_isNumbering_primed : primed.rules ≠ [] ∧
    ∃ s n, primed.start? = some s ∧ primed.number? = some n ∧ primed.IsNumbering s n ∧
      n.names = [['\''], ['M'], ['\'', '\''], ['x'], ['$']] ∧
      n.bodies 0 = [[1, 4, 0], []] ∧ n.bodies 1 = [[0, 3, 4]] := by
  have hrules : primed.rules ≠ [] := by decide
  obtain ⟨s, n, hs, hn, hnumbering, -, -⟩ := number?_isNumbering hrules
  refine ⟨hrules, s, n, hs, hn, hnumbering, ?_⟩
  have hn' : primed.number? = some (primed.number '\'') := rfl
  rw [Option.some.inj (hn.symm.trans hn')]
  decide

end Grammar

end PredictiveParsing
