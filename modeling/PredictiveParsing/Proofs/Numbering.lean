import Mathlib
import PredictiveParsing.NumberedGrammar

/-!
# The numbers of a grammar's symbols

Numbering is faithful: no two symbols share a number, and the productions of a nonterminal are those
of the grammar, symbol by symbol.

* `NumberedGrammar.WellFormed`: what the later stages rely on;
* `NumberedGrammar.code`: the number of a character;
* `Grammar.Occurs`: the symbols of a grammar;
* **`names_nodup`**, `label_code`, `isTerminal_code`, **`bodies_code`**: numbering loses nothing.
-/

namespace PredictiveParsing

theorem idxOf?_eq_some_iff {xs : List Text} {i : ℕ} {x : Text} (hnodup : xs.Nodup) :
    xs.idxOf? x = some i ↔ xs[i]? = some x := by
  constructor
  · intro h
    obtain ⟨hi, hx, -⟩ := List.idxOf?_eq_some_iff.1 h
    rw [List.getElem?_eq_getElem hi, hx]
  · intro h
    obtain ⟨hi, hx⟩ := List.getElem?_eq_some_iff.1 h
    refine List.idxOf?_eq_some_iff.2 ⟨hi, hx, fun j hj heq => ?_⟩
    exact absurd (hnodup.getElem_inj_iff.1 (heq.trans hx.symm)) hj.ne

/-! ## Rules by number -/

namespace NumberedGrammar

variable {g : NumberedGrammar} {A : ℕ} {body : List ℕ}

theorem getElem?_productions (h : body ∈ g.bodies A) : g.productions[A]? = some (g.bodies A) := by
  rw [bodies, List.getD_eq_getElem?_getD] at h ⊢
  cases hA : g.productions[A]? with
  | none => rw [hA] at h; exact absurd h List.not_mem_nil
  | some bodies => rfl

theorem mem_rules : (A, body) ∈ g.rules ↔ body ∈ g.bodies A := by
  simp only [rules, List.mem_flatMap, Prod.exists, List.mem_map, Prod.mk.injEq,
    List.mk_mem_zipIdx_iff_getElem?]
  constructor
  · rintro ⟨bodies, B, hB, body', hb, rfl, rfl⟩
    rw [NumberedGrammar.bodies, List.getD_eq_getElem?_getD, hB]
    exact hb
  · exact fun h => ⟨g.bodies A, A, getElem?_productions h, body, h, rfl, rfl⟩

theorem lt_length_productions_of_mem_rules (h : (A, body) ∈ g.rules) :
    A < g.productions.length := by
  rw [mem_rules] at h
  exact (List.getElem?_eq_some_iff.1 (getElem?_productions h)).1

/-- Every nonterminal has its productions, and `$` is a terminal that is found by its name. -/
structure WellFormed (g : NumberedGrammar) : Prop where
  length_productions : g.productions.length = g.nonterminals.length
  le_endMark : g.nonterminals.length ≤ g.endMark
  indexOf?_endMark : g.indexOf? [PredictiveParsing.endMark] = some g.endMark

theorem WellFormed.lt_of_mem_rules (hg : g.WellFormed) (h : (A, body) ∈ g.rules) :
    A < g.nonterminals.length :=
  hg.length_productions ▸ lt_length_productions_of_mem_rules h

theorem isTerminal_iff {i : ℕ} : g.isTerminal i = true ↔ g.nonterminals.length ≤ i := by
  simp [isTerminal]

theorem not_isTerminal_iff {i : ℕ} : g.isTerminal i = false ↔ i < g.nonterminals.length := by
  simp [isTerminal]

/-- The number of the symbol that a character is. -/
def code (g : NumberedGrammar) (c : Char) : ℕ := g.names.idxOf [c]

theorem nameOf_code {c : Char} (h : [c] ∈ g.names) : g.nameOf (g.code c) = [c] := by
  have hlt : g.code c < g.names.length := List.idxOf_lt_length_of_mem h
  rw [nameOf, List.getD_eq_getElem _ _ hlt]
  exact List.getElem_idxOf hlt

theorem label_code {c : Char} (h : [c] ∈ g.names) : g.label (g.code c) = c := by
  rw [label, nameOf_code h]
  rfl

theorem code_inj {c d : Char} (hc : [c] ∈ g.names) (hd : [d] ∈ g.names) :
    g.code c = g.code d ↔ c = d := by
  refine ⟨fun h => ?_, fun h => h ▸ rfl⟩
  rw [← label_code hc, ← label_code hd, h]

theorem indexOf?_eq_some {c : Char} {i : ℕ} (h : g.indexOf? [c] = some i) :
    [c] ∈ g.names ∧ i = g.code c := by
  have hc : [c] ∈ g.names := List.isSome_idxOf?.1 (Option.isSome_of_eq_some h)
  refine ⟨hc, ?_⟩
  rw [indexOf?] at h
  obtain ⟨hi, hn, hlt⟩ := List.idxOf?_eq_some_iff.1 h
  have hle : ¬ g.code c < i := fun hj => hlt _ hj (List.getElem_idxOf (hj.trans hi))
  have hge : ¬ i < g.code c := fun hj => by
    have := List.not_of_lt_findIdx hj
    simp [hn] at this
  omega

theorem indexOf?_code {c : Char} (h : [c] ∈ g.names) : g.indexOf? [c] = some (g.code c) := by
  obtain ⟨i, hi⟩ := Option.isSome_iff_exists.1 (List.isSome_idxOf?.2 h)
  rw [← (indexOf?_eq_some hi).2]
  exact hi

end NumberedGrammar

/-! ## The symbols of a grammar -/

namespace Grammar

variable {g : Grammar} {s c A : Char} {right : Text}

/-- The character is a symbol of the grammar: a left side, or part of a right side. -/
def Occurs (g : Grammar) (c : Char) : Prop :=
  c ∈ g.nonterminals ∨ ∃ A, ∃ right ∈ g.productions A, c ∈ right

theorem mem_nonterminals_of_mem_productions (h : right ∈ g.productions A) :
    A ∈ g.nonterminals := by
  obtain ⟨r, hr, hA, -⟩ := mem_productions.1 h
  exact mem_nonterminals.2 ⟨r, hr, hA⟩

theorem ne_endMark_of_mem_nonterminals (h : A ∈ g.nonterminals) : A ≠ endMark := by
  obtain ⟨r, -, rfl⟩ := mem_nonterminals.1 h
  exact r.left.ne_endMark

theorem ne_epsilon_of_mem_nonterminals (h : A ∈ g.nonterminals) : A ≠ epsilon := by
  obtain ⟨r, -, rfl⟩ := mem_nonterminals.1 h
  exact r.left.ne_epsilon

theorem epsilon_notMem_of_mem_productions (h : right ∈ g.productions A) : epsilon ∉ right := by
  obtain ⟨r, -, -, rfl⟩ := mem_productions.1 h
  exact r.epsilon_notMem

theorem Occurs.ne_epsilon (h : g.Occurs c) : c ≠ epsilon := by
  rcases h with h | ⟨A, right, hr, hc⟩
  · exact ne_epsilon_of_mem_nonterminals h
  · rintro rfl
    exact epsilon_notMem_of_mem_productions hr hc

theorem mem_terminals : c ∈ g.terminals ↔
    (∃ A, ∃ right ∈ g.productions A, c ∈ right) ∧ c ≠ endMark ∧ c ∉ g.nonterminals := by
  simp only [terminals, mem_distinct, List.mem_filter, List.mem_flatMap, List.mem_flatten,
    decide_eq_true_eq]
  refine and_congr_left fun _ => ⟨?_, ?_⟩
  · rintro ⟨A, -, right, hr, hc⟩
    exact ⟨A, right, hr, hc⟩
  · rintro ⟨A, right, hr, hc⟩
    exact ⟨A, mem_nonterminals_of_mem_productions hr, right, hr, hc⟩

theorem start_mem_nonterminals (hs : g.start? = some s) : s ∈ g.nonterminals := by
  obtain ⟨r, hr, rfl⟩ := Option.map_eq_some_iff.1 hs
  exact mem_nonterminals.2 ⟨r, List.mem_of_mem_head? hr, rfl⟩

theorem nonterminals_eq_cons (hs : g.start? = some s) : ∃ As, g.nonterminals = s :: As := by
  obtain ⟨r, hr, rfl⟩ := Option.map_eq_some_iff.1 hs
  obtain ⟨rs, hrs⟩ := List.head?_eq_some_iff.1 hr
  exact ⟨_, by rw [nonterminals, hrs, List.map_cons, distinct]⟩

/-! ## Numbers and names -/

theorem freshName_start (hs : s ∈ g.nonterminals) :
    freshName (g.nonterminals.map fun A => [A]) [s] = [s, '\''] := by
  have hprime : ([s, '\''] : Text) ∉ g.nonterminals.map fun A => ([A] : Text) := by simp
  obtain ⟨fuel, hfuel⟩ : ∃ fuel, g.nonterminals.length = fuel + 1 :=
    Nat.exists_eq_succ_of_ne_zero (List.length_pos_of_mem hs).ne'
  rw [freshName, List.length_map, hfuel, freshNameWithin, if_pos (List.mem_map_of_mem hs)]
  cases fuel with
  | zero => rfl
  | succ fuel => exact if_neg hprime

theorem names_number (hs : s ∈ g.nonterminals) : (g.number s).names =
    g.nonterminals.map (fun A => [A]) ++ [s, '\''] :: g.terminals.map (fun a => [a]) ++
      [[endMark]] := by
  simp only [NumberedGrammar.names, number, freshName_start hs, List.append_assoc,
    List.cons_append, List.nil_append]

theorem length_nonterminals_number :
    (g.number s).nonterminals.length = g.nonterminals.length + 1 := by
  simp [number]

theorem augmentedStart_number : (g.number s).augmentedStart = g.nonterminals.length := by
  rw [NumberedGrammar.augmentedStart, length_nonterminals_number, Nat.add_sub_cancel]

/-- **No two symbols share a name.** -/
theorem names_nodup (hs : s ∈ g.nonterminals) : (g.number s).names.Nodup := by
  have hinj : Function.Injective fun c : Char => ([c] : Text) := fun c d h => by simpa using h
  have hterminals : g.terminals.Nodup := nodup_distinct _
  have hnonterminals : g.nonterminals.Nodup := nodup_distinct _
  rw [names_number hs, List.nodup_append, List.nodup_append, List.nodup_cons]
  refine ⟨⟨hnonterminals.map hinj, ⟨by simp, hterminals.map hinj⟩, ?_⟩, by simp, ?_⟩
  · intro x hx y hy
    obtain ⟨A, hA, rfl⟩ := List.mem_map.1 hx
    rcases List.mem_cons.1 hy with rfl | hy
    · simp
    · obtain ⟨a, ha, rfl⟩ := List.mem_map.1 hy
      intro h
      obtain rfl := hinj h
      exact (mem_terminals.1 ha).2.2 hA
  · intro x hx y hy
    rw [List.mem_singleton.1 hy]
    rcases List.mem_append.1 hx with hx | hx
    · obtain ⟨A, hA, rfl⟩ := List.mem_map.1 hx
      exact fun h => ne_endMark_of_mem_nonterminals hA (hinj h)
    · rcases List.mem_cons.1 hx with rfl | hx
      · simp
      · obtain ⟨a, ha, rfl⟩ := List.mem_map.1 hx
        exact fun h => (mem_terminals.1 ha).2.1 (hinj h)

theorem length_of_mem_names (hs : s ∈ g.nonterminals) {name : Text}
    (h : name ∈ (g.number s).names) : name.length = 1 ∨ name.length = 2 := by
  rw [names_number hs] at h
  simp only [List.mem_append, List.mem_map, List.mem_cons, List.not_mem_nil, or_false] at h
  rcases h with (⟨A, -, rfl⟩ | rfl | ⟨a, -, rfl⟩) | rfl <;> simp

theorem mem_names_number (hs : s ∈ g.nonterminals) :
    [c] ∈ (g.number s).names ↔ c = endMark ∨ g.Occurs c := by
  have hterm : c ∈ g.nonterminals ∨ c ∈ g.terminals ∨ c = endMark ↔ c = endMark ∨ g.Occurs c := by
    rw [mem_terminals, Occurs]
    by_cases hc : c = endMark <;> by_cases hn : c ∈ g.nonterminals <;> simp [hc, hn]
  rw [names_number hs, ← hterm]
  simp

theorem Occurs.mem_names (hs : s ∈ g.nonterminals) (h : g.Occurs c) :
    [c] ∈ (g.number s).names :=
  (mem_names_number hs).2 (Or.inr h)

theorem endMark_mem_names (hs : s ∈ g.nonterminals) : [endMark] ∈ (g.number s).names :=
  (mem_names_number hs).2 (Or.inl rfl)

theorem code_nonterminal (hs : s ∈ g.nonterminals) {i : ℕ} (hi : i < g.nonterminals.length) :
    (g.number s).code g.nonterminals[i] = i := by
  have hlen : i < (g.number s).names.length := by
    rw [names_number hs]
    simp
    omega
  have hname : (g.number s).names[i] = [g.nonterminals[i]] := by
    simp only [names_number hs, List.append_assoc, List.cons_append]
    rw [List.getElem_append_left (by simpa using hi), List.getElem_map]
  rw [NumberedGrammar.code, ← hname]
  exact (names_nodup hs).idxOf_getElem i hlen

theorem code_lt_of_mem_nonterminals (hs : s ∈ g.nonterminals) (hA : A ∈ g.nonterminals) :
    (g.number s).code A < g.nonterminals.length := by
  obtain ⟨i, hi, rfl⟩ := List.getElem_of_mem hA
  rw [code_nonterminal hs hi]
  exact hi

theorem exists_code_eq (hs : s ∈ g.nonterminals) {i : ℕ}
    (hi : i < (g.number s).nonterminals.length) (hne : i ≠ (g.number s).augmentedStart) :
    ∃ A ∈ g.nonterminals, (g.number s).code A = i := by
  rw [length_nonterminals_number] at hi
  rw [augmentedStart_number] at hne
  have hlt : i < g.nonterminals.length := by omega
  exact ⟨g.nonterminals[i], List.getElem_mem hlt, code_nonterminal hs hlt⟩

theorem code_start (hs : g.start? = some s) : (g.number s).code s = 0 := by
  obtain ⟨As, hAs⟩ := nonterminals_eq_cons hs
  have hlen : 0 < g.nonterminals.length := by rw [hAs]; simp
  have h := code_nonterminal (start_mem_nonterminals hs) hlen
  simpa [hAs] using h

theorem code_endMark (hs : s ∈ g.nonterminals) :
    (g.number s).code endMark = (g.number s).endMark := by
  have hsize : (g.number s).endMark < (g.number s).names.length := by
    rw [NumberedGrammar.endMark, NumberedGrammar.size, names_number hs]
    simp
  have hlast : (g.number s).names[(g.number s).endMark] = [endMark] := by
    simp [NumberedGrammar.endMark, NumberedGrammar.size, names_number hs]
  rw [NumberedGrammar.code, ← hlast]
  exact (names_nodup hs).idxOf_getElem _ hsize

theorem isTerminal_code (hs : s ∈ g.nonterminals) (hc : [c] ∈ (g.number s).names) :
    (g.number s).isTerminal ((g.number s).code c) = true ↔ c ∉ g.nonterminals := by
  rw [NumberedGrammar.isTerminal_iff, length_nonterminals_number]
  refine ⟨fun h hn => ?_, fun hn => ?_⟩
  · have := code_lt_of_mem_nonterminals hs hn
    omega
  · by_contra hlt
    have hname := NumberedGrammar.nameOf_code hc
    rw [NumberedGrammar.nameOf, names_number hs, List.getD_eq_getElem?_getD,
      List.append_assoc] at hname
    rcases Nat.lt_or_ge ((g.number s).code c) g.nonterminals.length with hl | hl
    · rw [List.getElem?_append_left (by simpa using hl), List.getElem?_map,
        List.getElem?_eq_getElem hl] at hname
      simp only [Option.map_some, Option.getD_some, List.cons.injEq, and_true] at hname
      exact hn (hname ▸ List.getElem_mem hl)
    · have hl : (g.number s).code c = g.nonterminals.length := by omega
      rw [hl, List.getElem?_append_right (by simp)] at hname
      simp at hname

/-! ## The productions -/

theorem length_productions_number :
    (g.number s).productions.length = (g.number s).nonterminals.length := by
  simp [number]

theorem wellFormed_number (hs : s ∈ g.nonterminals) : (g.number s).WellFormed where
  length_productions := length_productions_number
  le_endMark := by
    rw [← NumberedGrammar.isTerminal_iff, ← code_endMark hs,
      isTerminal_code hs (endMark_mem_names hs)]
    exact fun h => ne_endMark_of_mem_nonterminals h rfl
  indexOf?_endMark := by
    rw [NumberedGrammar.indexOf?_code (endMark_mem_names hs), code_endMark hs]

theorem exists_start? (h : g.rules ≠ []) : ∃ s, g.start? = some s := by
  obtain ⟨r, rs, hrs⟩ := List.exists_cons_of_ne_nil h
  exact ⟨r.left.char, by rw [start?, hrs]; rfl⟩

theorem number?_eq_some (hs : g.start? = some s) : g.number? = some (g.number s) := by
  rw [number?, hs]
  rfl

theorem exists_number? (h : g.rules ≠ []) : ∃ n, g.number? = some n ∧ n.WellFormed := by
  obtain ⟨s, hs⟩ := exists_start? h
  exact ⟨g.number s, number?_eq_some hs, wellFormed_number (start_mem_nonterminals hs)⟩

/-- **The productions of a nonterminal**, symbol by symbol. -/
theorem bodies_code (hs : s ∈ g.nonterminals) (hA : A ∈ g.nonterminals) :
    (g.number s).bodies ((g.number s).code A) =
      (g.productions A).map fun right => right.map (g.number s).code := by
  obtain ⟨i, hi, rfl⟩ := List.getElem_of_mem hA
  rw [code_nonterminal hs hi, NumberedGrammar.bodies, List.getD_eq_getElem?_getD]
  simp only [number]
  rw [List.getElem?_append_left (by simpa using hi), List.getElem?_map,
    List.getElem?_eq_getElem hi]
  rfl

theorem bodies_augmentedStart :
    (g.number s).bodies (g.number s).augmentedStart =
      [[(g.number s).start, (g.number s).endMark]] := by
  rw [augmentedStart_number, NumberedGrammar.bodies, List.getD_eq_getElem?_getD]
  simp only [number]
  rw [List.getElem?_append_right (by simp)]
  simp [NumberedGrammar.start, NumberedGrammar.endMark, NumberedGrammar.size, NumberedGrammar.names]

theorem mem_rules_of_mem_productions (hs : s ∈ g.nonterminals) (h : right ∈ g.productions A) :
    ((g.number s).code A, right.map (g.number s).code) ∈ (g.number s).rules := by
  rw [NumberedGrammar.mem_rules, bodies_code hs (mem_nonterminals_of_mem_productions h)]
  exact List.mem_map_of_mem h

theorem augmented_mem_rules : ((g.number s).augmentedStart,
    [(g.number s).start, (g.number s).endMark]) ∈ (g.number s).rules := by
  rw [NumberedGrammar.mem_rules, bodies_augmentedStart]
  exact List.mem_singleton_self _

end Grammar

end PredictiveParsing
