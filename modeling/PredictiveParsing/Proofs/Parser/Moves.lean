import Mathlib
import PredictiveParsing.Parser.Run
import PredictiveParsing.Proofs.Parser.Compiled

/-!
# Moves of a parser

A run is a chain of moves that ends where there is no further move. Its limit does not matter, as
long as it is larger than the number of moves.

* `Parser.Moves`: some moves in a row, with their number; **`Moves.invariant`**: what every move
  preserves;
* `move?_cons`, `move?_eq_ok`, `move?_eq_atEndMark`: what each move and each stop needs;
* `entries`, `Config.expand_eq`: what an expansion pushes; `Config.symbols`: the pending symbols;
* **`runFrom_of_moves`**, **`moves_runFrom`**, `mem_moves_runFrom`: runs and chains of moves;
* `Parser.parse_eq_ok`: where a successful parse stops.
-/

namespace PredictiveParsing

/-- So many moves lead from one configuration to another. -/
inductive Parser.Moves (p : Parser) : ℕ → Config → Config → Prop where
  | refl (c : Config) : Moves p 0 c c
  | step {n : ℕ} {c d : Config} {m : Move} (h : p.move? c = .ok m)
      (rest : Moves p n (c.apply p.grammar m) d) : Moves p (n + 1) c d

namespace Parser

variable {p : Parser} {c d e : Config} {m : Move} {k n : ℕ}

theorem Moves.single (h : p.move? c = .ok m) : p.Moves 1 c (c.apply p.grammar m) :=
  .step h (.refl _)

theorem Moves.exists_move (h : p.Moves 1 c d) :
    ∃ m, p.move? c = .ok m ∧ d = c.apply p.grammar m := by
  cases h with
  | step hm rest =>
    cases rest
    exact ⟨_, hm, rfl⟩

theorem Moves.trans (h : p.Moves n c d) (h' : p.Moves k d e) : p.Moves (n + k) c e := by
  induction h with
  | refl => rwa [Nat.zero_add]
  | step hm _ ih =>
    rw [Nat.add_right_comm]
    exact .step hm (ih h')

/-- **What every move preserves** is preserved by any number of moves. -/
theorem Moves.invariant {P : Config → Prop}
    (step : ∀ c m, P c → p.move? c = .ok m → P (c.apply p.grammar m))
    (h : p.Moves n c d) (hc : P c) : P d := by
  induction h with
  | refl => exact hc
  | step hm _ ih => exact ih (step _ _ hc hm)

/-! ## What a move needs -/

variable {top : Pending} {stack : List Pending} {t i : ℕ}

theorem move?_nil (hs : c.stack = []) : p.move? c = .error .atEndMark := by
  rw [move?, hs]

theorem move?_cons (hs : c.stack = top :: stack) : p.move? c =
    if top.symbol = p.grammar.endMark then .error .atEndMark
    else if p.grammar.isTerminal top.symbol then
      if p.grammar.indexOf? [c.lookahead] = some top.symbol then
        .ok (.consume top.symbol c.cursor)
      else .error (.failed (.unexpectedToken c.lookahead (p.grammar.label top.symbol)))
    else
      match p.choice? top.symbol c.lookahead with
      | some i => .ok (.expand top.symbol i c.lookahead)
      | none =>
        .error (.failed (.noTransition (p.grammar.nameOf top.symbol) c.lookahead)) := by
  obtain ⟨cursor, rest, _, forest⟩ := c
  cases hs
  rfl

theorem move?_endMark (hs : c.stack = top :: stack) (h : top.symbol = p.grammar.endMark) :
    p.move? c = .error .atEndMark := by
  rw [move?_cons hs, if_pos h]

theorem move?_expand (hs : c.stack = top :: stack) (hend : top.symbol ≠ p.grammar.endMark)
    (hX : p.grammar.isTerminal top.symbol = false)
    (hi : p.choice? top.symbol c.lookahead = some i) :
    p.move? c = .ok (.expand top.symbol i c.lookahead) := by
  rw [move?_cons hs, if_neg hend, hX, hi]
  rfl

theorem move?_consume (hs : c.stack = top :: stack) (hend : top.symbol ≠ p.grammar.endMark)
    (ha : p.grammar.isTerminal top.symbol = true)
    (hl : p.grammar.indexOf? [c.lookahead] = some top.symbol) :
    p.move? c = .ok (.consume top.symbol c.cursor) := by
  rw [move?_cons hs, if_neg hend, if_pos ha, if_pos hl]

/-- **A move** expands a nonterminal by the production that the table gives, or consumes the
lookahead. -/
theorem move?_eq_ok (h : p.move? c = .ok m) : ∃ top stack, c.stack = top :: stack ∧
    top.symbol ≠ p.grammar.endMark ∧
    ((p.grammar.isTerminal top.symbol = false ∧ ∃ i, p.choice? top.symbol c.lookahead = some i ∧
        m = .expand top.symbol i c.lookahead) ∨
      (p.grammar.isTerminal top.symbol = true ∧
        p.grammar.indexOf? [c.lookahead] = some top.symbol ∧
        m = .consume top.symbol c.cursor)) := by
  cases hs : c.stack with
  | nil => rw [move?_nil hs] at h; cases h
  | cons top stack =>
    rw [move?_cons hs] at h
    refine ⟨top, stack, rfl, ?_⟩
    split_ifs at h with hend hterm hlook
    · cases h
      exact ⟨hend, Or.inr ⟨hterm, hlook, rfl⟩⟩
    · rw [Bool.not_eq_true] at hterm
      split at h
      · next i hi => cases h; exact ⟨hend, Or.inl ⟨hterm, i, hi, rfl⟩⟩
      · cases h

theorem move?_eq_atEndMark (h : p.move? c = .error .atEndMark) :
    c.stack = [] ∨ ∃ top stack, c.stack = top :: stack ∧ top.symbol = p.grammar.endMark := by
  cases hs : c.stack with
  | nil => exact Or.inl rfl
  | cons top stack =>
    refine Or.inr ⟨top, stack, rfl, ?_⟩
    rw [move?_cons hs] at h
    split_ifs at h with hend
    · exact hend
    · cases h
    · split at h <;> cases h

theorem move?_ne_stepLimit : p.move? c ≠ .error (.failed .stepLimit) := by
  cases hs : c.stack with
  | nil => rw [move?_nil hs]; nofun
  | cons top stack =>
    rw [move?_cons hs]
    split_ifs
    · nofun
    · nofun
    · nofun
    · split <;> nofun

theorem choice?_eq (hl : p.grammar.indexOf? [c.lookahead] = some t) (A : ℕ) :
    p.choice? A c.lookahead = p.table.get? A t := by
  rw [choice?, hl, Option.bind_some]

end Parser

/-! ## The effect of a move -/

/-- The entries that an expansion pushes, if the node of the first symbol is `first`. -/
def entries (first : ℕ) (body : List ℕ) : List Pending :=
  (body.zipIdx first).map fun (s, node) => ⟨s, node⟩

@[simp]
theorem entries_cons (first X : ℕ) (body : List ℕ) :
    entries first (X :: body) = ⟨X, first⟩ :: entries (first + 1) body := rfl

@[simp]
theorem length_entries (first : ℕ) (body : List ℕ) : (entries first body).length = body.length := by
  simp [entries]

theorem entries_append (first : ℕ) (u v : List ℕ) :
    entries first (u ++ v) = entries first u ++ entries (first + u.length) v := by
  rw [entries, List.zipIdx_append, List.map_append]
  rfl

theorem map_symbol_entries (first : ℕ) (body : List ℕ) :
    (entries first body).map (·.symbol) = body := by
  induction body generalizing first with
  | nil => rfl
  | cons X body ih => rw [entries_cons, List.map_cons, ih]

theorem symbol_mem_of_mem_entries {first : ℕ} {body : List ℕ} {e : Pending}
    (h : e ∈ entries first body) : e.symbol ∈ body := by
  rw [← map_symbol_entries first body]
  exact List.mem_map_of_mem h

theorem map_node_entries (first : ℕ) (body : List ℕ) :
    (entries first body).map (·.node) = List.range' first body.length := by
  induction body generalizing first with
  | nil => rfl
  | cons X body ih => rw [entries_cons, List.map_cons, ih, List.length_cons, List.range'_succ]

theorem symbol_of_mem_entries {first : ℕ} {right : Text} {label : ℕ → Char} {code : Char → ℕ}
    (h : (List.range' first right.length).map label = right) {e : Pending}
    (he : e ∈ entries first (right.map code)) :
    label e.node ∈ right ∧ e.symbol = code (label e.node) := by
  induction right generalizing first with
  | nil => exact absurd he List.not_mem_nil
  | cons x right ih =>
    rw [List.length_cons, List.range'_succ, List.map_cons] at h
    obtain ⟨hx, hright⟩ := List.cons.inj h
    rw [List.map_cons, entries_cons] at he
    rcases List.mem_cons.1 he with rfl | he
    · exact ⟨hx ▸ List.mem_cons_self, congrArg code hx.symm⟩
    · obtain ⟨hmem, hsymbol⟩ := ih hright he
      exact ⟨List.mem_cons_of_mem _ hmem, hsymbol⟩

namespace Config

variable {c : Config} {top : Pending} {stack : List Pending}

theorem expand_eq (hs : c.stack = top :: stack) (g : NumberedGrammar) (body : List ℕ) :
    c.expand g body = ⟨c.cursor, c.rest, entries c.forest.size body ++ stack,
      c.forest.addNodes (if body = [] then [epsilon] else body.map g.label) top.node⟩ := by
  obtain ⟨cursor, rest, _, forest⟩ := c
  cases hs
  rfl

/-- The pending symbols by number, the next one first. -/
def symbols (c : Config) : List ℕ := c.stack.map (·.symbol)

theorem symbols_of_cons (hs : c.stack = top :: stack) :
    c.symbols = top.symbol :: stack.map (·.symbol) := by
  rw [symbols, hs, List.map_cons]

theorem symbols_expand (hs : c.stack = top :: stack) (g : NumberedGrammar) (body : List ℕ) :
    (c.expand g body).symbols = body ++ stack.map (·.symbol) := by
  rw [symbols, expand_eq hs, List.map_append, map_symbol_entries]

theorem symbols_consume (hs : c.stack = top :: stack) :
    c.consume.symbols = stack.map (·.symbol) := by
  change c.stack.tail.map (·.symbol) = _
  rw [hs, List.tail_cons]

theorem lookahead_congr {d : Config} (h : c.rest = d.rest) : c.lookahead = d.lookahead := by
  rw [lookahead, lookahead, h]

end Config

/-! ## Moves of a compiled parser -/

namespace Parser

variable {p : Parser} {c : Config} {top : Pending} {stack : List Pending} {t : ℕ} {body : List ℕ}

theorem Compiled.moves_expand (hp : p.Compiled) (hs : c.stack = top :: stack)
    (hl : p.grammar.indexOf? [c.lookahead] = some t) (hbody : (top.symbol, body) ∈ p.grammar.rules)
    (ht : t ∈ p.facts.claimed top.symbol body) : p.Moves 1 c (c.expand p.grammar body) := by
  obtain ⟨i, hi, rfl⟩ := hp.exists_get? hbody ht
  have hlt := hp.lt_of_mem_rules hbody
  have hend : top.symbol ≠ p.grammar.endMark :=
    (hlt.trans_le hp.wellFormed.le_endMark).ne
  exact .single (move?_expand hs hend (NumberedGrammar.not_isTerminal_iff.2 hlt)
    ((choice?_eq hl _).trans hi))

theorem Compiled.rest_ne_nil (hp : p.Compiled)
    (hl : p.grammar.indexOf? [c.lookahead] = some t) (ht : t ≠ p.grammar.endMark) :
    c.rest ≠ [] := by
  intro hrest
  rw [Config.lookahead, hrest, List.headD_nil, hp.wellFormed.indexOf?_endMark] at hl
  exact ht (Option.some.inj hl).symm

theorem Compiled.rest_eq_cons (hp : p.Compiled)
    (hl : p.grammar.indexOf? [c.lookahead] = some t) (ht : t ≠ p.grammar.endMark) :
    c.rest = c.lookahead :: c.rest.tail := by
  obtain ⟨x, rest, hrest⟩ := List.exists_cons_of_ne_nil (hp.rest_ne_nil hl ht)
  rw [Config.lookahead, hrest, List.headD_cons, List.tail_cons]

end Parser

/-! ## Runs -/

namespace Parser

variable {p : Parser} {c d : Config} {n limit : ℕ} {stop : Stop}

/-- **A run goes where the moves lead**, if its limit is large enough. -/
theorem runFrom_of_moves (h : p.Moves n c d) (hd : p.move? d = .error stop) (hn : n < limit)
    (done : List Move) :
    (p.runFrom limit c done).last = d ∧ (p.runFrom limit c done).stop = stop ∧
      (p.runFrom limit c done).moves.length = done.length + n := by
  induction h generalizing limit done with
  | refl c =>
    obtain ⟨limit, rfl⟩ := Nat.exists_eq_succ_of_ne_zero (Nat.ne_zero_of_lt hn)
    simp [runFrom, hd]
  | @step n c d m hm _ ih =>
    obtain ⟨limit, rfl⟩ := Nat.exists_eq_succ_of_ne_zero (Nat.ne_zero_of_lt hn)
    have h := ih hd (Nat.lt_of_succ_lt_succ hn) (m :: done)
    rw [List.length_cons, Nat.add_right_comm] at h
    simpa only [Nat.succ_eq_add_one, runFrom, hm, Nat.add_assoc] using h

/-- **Every run is a chain of moves**, and it ends for a reason or at its limit. -/
theorem moves_runFrom (p : Parser) (limit : ℕ) (c : Config) (done : List Move) :
    ∃ n, p.Moves n c (p.runFrom limit c done).last ∧
      ((p.runFrom limit c done).stop = .failed .stepLimit ∨
        p.move? (p.runFrom limit c done).last = .error (p.runFrom limit c done).stop) := by
  induction limit generalizing c done with
  | zero => exact ⟨0, .refl c, Or.inl rfl⟩
  | succ limit ih =>
    rw [runFrom]
    cases hm : p.move? c with
    | error stop => exact ⟨0, .refl c, Or.inr hm⟩
    | ok m =>
      obtain ⟨n, hn, hstop⟩ := ih (c.apply p.grammar m) (m :: done)
      exact ⟨n + 1, .step hm hn, hstop⟩

theorem Moves.eq_of_stop {d' : Config} {n' : ℕ} {stop' : Stop} (h : p.Moves n c d)
    (hd : p.move? d = .error stop) (h' : p.Moves n' c d') (hd' : p.move? d' = .error stop') :
    d = d' ∧ stop = stop' ∧ n = n' := by
  have hn : n < n + n' + 1 := by omega
  have hn' : n' < n + n' + 1 := by omega
  have hrun := runFrom_of_moves h hd hn []
  have hrun' := runFrom_of_moves h' hd' hn' []
  refine ⟨hrun.1.symm.trans hrun'.1, hrun.2.1.symm.trans hrun'.2.1, ?_⟩
  have hlen := hrun.2.2.symm.trans hrun'.2.2
  simpa using hlen

theorem Moves.lt_of_stop {e : Config} {k : ℕ} {m : Move} (h : p.Moves n c d)
    (hm : p.move? d = .ok m) (h' : p.Moves k c e) (he : p.move? e = .error stop) : n < k := by
  induction h generalizing k with
  | refl c =>
    cases h' with
    | refl => rw [hm] at he; cases he
    | step => exact Nat.succ_pos _
  | step hfirst _ ih =>
    cases h' with
    | refl => rw [hfirst] at he; cases he
    | step hfirst' rest' =>
      rw [hfirst] at hfirst'
      cases hfirst'
      exact Nat.succ_lt_succ (ih hm rest')

theorem subset_moves_runFrom (p : Parser) (limit : ℕ) (c : Config) (done : List Move) :
    done ⊆ (p.runFrom limit c done).moves := by
  induction limit generalizing c done with
  | zero => exact fun m hm => List.mem_reverse.2 hm
  | succ limit ih =>
    rw [runFrom]
    cases p.move? c with
    | error stop => exact fun m hm => List.mem_reverse.2 hm
    | ok m => exact fun _ hm => ih _ _ (List.mem_cons_of_mem m hm)

theorem mem_moves_runFrom {m : Move} (h : p.Moves n c d) (hm : p.move? d = .ok m) (hn : n < limit)
    (done : List Move) : m ∈ (p.runFrom limit c done).moves := by
  induction h generalizing limit done with
  | refl c =>
    obtain ⟨limit, rfl⟩ := Nat.exists_eq_succ_of_ne_zero (Nat.ne_zero_of_lt hn)
    rw [Nat.succ_eq_add_one, runFrom, hm]
    exact subset_moves_runFrom p limit _ _ List.mem_cons_self
  | step hfirst _ ih =>
    obtain ⟨limit, rfl⟩ := Nat.exists_eq_succ_of_ne_zero (Nat.ne_zero_of_lt hn)
    rw [Nat.succ_eq_add_one, runFrom, hfirst]
    exact ih hm (Nat.lt_of_succ_lt_succ hn) _

theorem parse_eq_ok {input : Text} {f : Forest} (h : p.parse input = .ok f) :
    ∃ n d, p.Moves n (.initial p.grammar input) d ∧ p.move? d = .error .atEndMark ∧
      d.cursor = input.length ∧ d.forest = f := by
  obtain ⟨n, hn, hstop⟩ := p.moves_runFrom (p.moveLimit input.length) (.initial p.grammar input) []
  unfold parse Run.result at h
  rw [← run] at hn hstop
  split at h
  · cases h
  · next hend =>
    split_ifs at h with hcursor
    cases h
    refine ⟨n, (p.run input).last, hn, ?_, hcursor, rfl⟩
    rcases hstop with hstop | hstop
    · rw [hend] at hstop
      cases hstop
    · rw [hstop, hend]

theorem exists_parse {g : Grammar} {input : Text}
    (h : (g.compile.bind fun p => p.parse input).toOption.isSome = true) :
    ∃ p f, g.compile = .ok p ∧ p.parse input = .ok f := by
  cases hp : g.compile with
  | error e => rw [hp] at h; cases h
  | ok p =>
    rw [hp] at h
    change (p.parse input).toOption.isSome = true at h
    cases hf : p.parse input with
    | error e => rw [hf] at h; cases h
    | ok f => exact ⟨p, f, rfl, hf⟩

end Parser

end PredictiveParsing
