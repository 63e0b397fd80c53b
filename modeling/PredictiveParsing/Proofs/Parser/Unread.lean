import Mathlib
import PredictiveParsing.Proofs.Parser.Prefixes
import PredictiveParsing.Proofs.Parser.RoundTrip

/-!
# Unread input

A run reads its input up to the lookahead at which it stops, and no further. Behind that symbol the
input can be exchanged for any other: the run makes the same moves, builds the same tree and stops
at the same place for the same reason. The end mark is never consumed, so that a run stops at the
latest at the first `$` of the input or behind its last symbol.

* `Config.withRest`: a configuration with other input left; `move?_withRest`: the next move sees
  only the lookahead;
* `Parser.Reads`: what is consumed between two configurations, and that the rest does not matter;
  **`exists_reads`**: this holds of any number of moves;
* **`run_append`**: the run on any input that goes on with the same lookahead;
* **`outcome_of_agree`**: the outcome of a parse is told by what it reads.
-/

namespace PredictiveParsing

namespace Config

/-- The configuration with other input left. -/
def withRest (c : Config) (rest : Text) : Config := { c with rest }

variable (c : Config) (rest : Text)

@[simp]
theorem withRest_cursor : (c.withRest rest).cursor = c.cursor := rfl

@[simp]
theorem withRest_forest : (c.withRest rest).forest = c.forest := rfl

theorem expand_withRest (g : NumberedGrammar) (body : List ℕ) :
    (c.withRest rest).expand g body = (c.expand g body).withRest rest := by
  cases hs : c.stack with
  | nil =>
    obtain ⟨cursor, rest', _, forest⟩ := c
    cases hs
    rfl
  | cons top stack =>
    rw [expand_eq (c := c.withRest rest) hs, expand_eq hs]
    rfl

end Config

theorem headD_append_congr {u rest rest' : Text}
    (h : rest.headD endMark = rest'.headD endMark) :
    (u ++ rest).headD endMark = (u ++ rest').headD endMark := by
  cases u with
  | nil => exact h
  | cons => rfl

namespace Parser

open Config

variable {p : Parser} {g : Grammar} {c d : Config} {m : Move} {top : Pending}
  {stack : List Pending} {n i : ℕ} {u w rest : Text} {stop : Stop}

theorem move?_withRest (h : rest.headD endMark = c.lookahead) :
    p.move? (c.withRest rest) = p.move? c := by
  have hl : (c.withRest rest).lookahead = c.lookahead := h
  cases hs : c.stack with
  | nil => rw [move?_nil (c := c.withRest rest) hs, move?_nil hs]
  | cons top stack => rw [move?_cons (c := c.withRest rest) hs, move?_cons hs, hl, withRest_cursor]

/-- **What is read between two configurations** that are so many moves apart: `u` is consumed, `$`
is not in it, and the moves are the same with any other input behind `u` that has the same
lookahead. -/
structure Reads (p : Parser) (u : Text) (n : ℕ) (c d : Config) : Prop where
  rest_eq : c.rest = u ++ d.rest
  cursor_eq : d.cursor = c.cursor + u.length
  endMark_notMem : endMark ∉ u
  moves : ∀ rest, rest.headD endMark = d.lookahead →
    p.Moves n (c.withRest (u ++ rest)) (d.withRest rest)

theorem Reads.refl (p : Parser) (c : Config) : p.Reads [] 0 c c where
  rest_eq := rfl
  cursor_eq := rfl
  endMark_notMem := List.not_mem_nil
  moves _ _ := .refl _

theorem Reads.expand (hs : c.stack = top :: stack)
    (hm : p.move? c = .ok (.expand top.symbol i c.lookahead))
    (h : p.Reads u n (c.expand p.grammar (p.grammar.body top.symbol i)) d) :
    p.Reads u (n + 1) c d := by
  have hexpand := expand_eq hs p.grammar (p.grammar.body top.symbol i)
  have hrest : c.rest = u ++ d.rest := by rw [← h.rest_eq, hexpand]
  refine ⟨hrest, by rw [h.cursor_eq, hexpand], h.endMark_notMem, fun rest hl => ?_⟩
  have hlook : (u ++ rest).headD endMark = c.lookahead := by
    rw [lookahead, hrest]
    exact headD_append_congr hl
  refine .step ((move?_withRest hlook).trans hm) ?_
  show p.Moves n ((c.withRest (u ++ rest)).expand p.grammar _) (d.withRest rest)
  rw [expand_withRest]
  exact h.moves rest hl

theorem Compiled.lookahead_ne_endMark (hp : p.Compiled) (hend : top.symbol ≠ p.grammar.endMark)
    (hl : p.grammar.indexOf? [c.lookahead] = some top.symbol) : c.lookahead ≠ endMark := by
  intro hlook
  rw [hlook, hp.wellFormed.indexOf?_endMark] at hl
  exact hend (Option.some.inj hl).symm

theorem Reads.consume (hp : p.Compiled) (hend : top.symbol ≠ p.grammar.endMark)
    (hl : p.grammar.indexOf? [c.lookahead] = some top.symbol)
    (hm : p.move? c = .ok (.consume top.symbol c.cursor)) (h : p.Reads u n c.consume d) :
    p.Reads (c.lookahead :: u) (n + 1) c d := by
  have hrest : c.rest.tail = u ++ d.rest := h.rest_eq
  refine ⟨by rw [hp.rest_eq_cons hl hend, hrest]; rfl, ?_, ?_, fun rest hd => ?_⟩
  · have hcursor : d.cursor = c.cursor + 1 + u.length := h.cursor_eq
    rw [hcursor, List.length_cons]
    omega
  · simpa [h.endMark_notMem] using (hp.lookahead_ne_endMark hend hl).symm
  · refine .step ((move?_withRest rfl).trans hm) ?_
    exact h.moves rest hd

/-- **Any number of moves** reads some of the input, and the rest does not matter. -/
theorem Compiled.exists_reads (hp : p.Compiled) (h : p.Moves n c d) : ∃ u, p.Reads u n c d := by
  -- From the last move back to the first, as it is the lookahead at the end that is kept.
  induction h with
  | refl c => exact ⟨[], .refl p c⟩
  | step hm _ ih =>
    obtain ⟨u, hu⟩ := ih
    obtain ⟨top, stack, hs, hend, ⟨-, i, -, rfl⟩ | ⟨-, hl, rfl⟩⟩ := move?_eq_ok hm
    · exact ⟨u, hu.expand hs hm⟩
    · exact ⟨_, hu.consume hp hend hl hm⟩

/-! ## Whole runs -/

/-- **The run on an input** consumes its first symbols, among which there is no `$`. On any input
that begins with them and has the same lookahead behind them, the run stops in the same place for
the same reason. -/
theorem Compiled.run_append (hp : p.Compiled) (w : Text) :
    ∃ u, w = u ++ (p.run w).last.rest ∧ (p.run w).last.cursor = u.length ∧ endMark ∉ u ∧
      ∀ rest, rest.headD endMark = (p.run w).last.lookahead →
        (p.run (u ++ rest)).last = (p.run w).last.withRest rest ∧
          (p.run (u ++ rest)).stop = (p.run w).stop := by
  obtain ⟨-, hmoves, hstop⟩ := hp.moves_run w
  obtain ⟨u, hu⟩ := hp.exists_reads hmoves
  have hcursor : (p.run w).last.cursor = 0 + u.length := hu.cursor_eq
  refine ⟨u, hu.rest_eq, by omega, hu.endMark_notMem, fun rest hl => ?_⟩
  obtain ⟨-, hmoves', hstop'⟩ := hp.moves_run (u ++ rest)
  obtain ⟨hlast, hend, -⟩ :=
    hmoves'.eq_of_stop hstop' (hu.moves rest hl) ((move?_withRest hl).trans hstop)
  exact ⟨hlast, hend⟩

theorem exists_eq_append_of_take {w : Text} {l : Char} (hu : endMark ∉ u)
    (h : (w ++ [endMark]).take (u.length + 1) = u ++ [l]) :
    ∃ rest, w = u ++ rest ∧ rest.headD endMark = l := by
  induction u generalizing w with
  | nil =>
    refine ⟨w, rfl, ?_⟩
    cases w with
    | nil => simpa using h
    | cons => simpa using h
  | cons y u ih =>
    simp only [List.mem_cons, not_or] at hu
    cases w with
    | nil =>
      simp only [List.nil_append, List.take_succ_cons, List.cons_append, List.cons.injEq] at h
      exact absurd h.1 hu.1
    | cons x w =>
      simp only [List.cons_append, List.length_cons, List.take_succ_cons, List.cons.injEq] at h
      obtain ⟨rfl, h⟩ := h
      obtain ⟨rest, rfl, hl⟩ := ih hu.2 h
      exact ⟨rest, rfl, hl⟩

theorem take_append_endMark (u rest : Text) :
    (u ++ rest ++ [endMark]).take (u.length + 1) = u ++ [rest.headD endMark] := by
  rw [List.append_assoc, List.take_append]
  cases rest <;> simp

theorem Compiled.failed_run (hp : p.Compiled) {e : Error} (h : (p.run w).stop = .failed e) :
    p.parse w = .error e ∧
      ((∃ expected, e = .unexpectedToken (p.run w).last.lookahead expected) ∨
        ∃ name, e = .noTransition name (p.run w).last.lookahead) := by
  obtain ⟨-, -, hstop⟩ := hp.moves_run w
  rw [h] at hstop
  exact ⟨by rw [parse, Run.result, h], move?_eq_failed hstop⟩

/-- **The outcome of a parse does not depend on unread input.** The cursor where a run stops is
within the input and not behind its first `$`. On every input that agrees up to the symbol at the
cursor, where the end mark follows the last symbol of each, the run stops at this cursor as well:
with the same error of the same fields, or at the end mark, with the same tree if the cursor is at
the end of that input and with the error that there is more otherwise. An input that contains `$` is
never accepted. -/
theorem outcome_of_agree (h : g.compile = .ok p) (w : Text) :
    (p.run w).last.cursor ≤ w.length ∧
      (∀ i, w[i]? = some endMark → (p.run w).last.cursor ≤ i) ∧
      (∀ w' : Text,
        (w' ++ [endMark]).take ((p.run w).last.cursor + 1) =
            (w ++ [endMark]).take ((p.run w).last.cursor + 1) →
          (p.run w').last.cursor = (p.run w).last.cursor ∧
            ((∃ e, (p.run w).stop = .failed e ∧ (p.run w').stop = .failed e ∧
                ((∃ found expected, e = .unexpectedToken found expected) ∨
                  ∃ name found, e = .noTransition name found) ∧
                p.parse w = .error e ∧ p.parse w' = .error e) ∨
              ((p.run w).stop = .atEndMark ∧ (p.run w').stop = .atEndMark ∧
                p.parse w' =
                  if (p.run w).last.cursor = w'.length then .ok (p.run w).last.forest
                  else .error (.trailingInput (p.run w).last.cursor w'.length)))) ∧
      (endMark ∈ w → ∀ f, p.parse w ≠ .ok f) := by
  obtain ⟨s, -, -, hp⟩ := Grammar.compile_eq_ok h
  obtain ⟨u, hw, hcursor, hu, hrun⟩ := hp.run_append w
  have hfirst : ∀ i, w[i]? = some endMark → u.length ≤ i := by
    intro i hi
    by_contra hlt
    rw [hw, List.getElem?_append_left (by omega)] at hi
    exact hu (List.mem_of_getElem? hi)
  rw [hcursor]
  refine ⟨?_, hfirst, fun w' hagree => ?_, fun hmem f hf => ?_⟩
  · rw [hw, List.length_append]
    omega
  · have htake := take_append_endMark u (p.run w).last.rest
    rw [← hw] at htake
    obtain ⟨rest, rfl, hl⟩ := exists_eq_append_of_take hu (hagree.trans htake)
    obtain ⟨hlast, hstop⟩ := hrun rest hl
    refine ⟨by rw [hlast, withRest_cursor, hcursor], ?_⟩
    cases hend : (p.run w).stop with
    | failed e =>
      rw [hend] at hstop
      obtain ⟨hparse, hcause⟩ := hp.failed_run hend
      refine Or.inl ⟨e, rfl, hstop, ?_, hparse, (hp.failed_run hstop).1⟩
      exact hcause.imp (fun ⟨expected, he⟩ => ⟨_, expected, he⟩) fun ⟨name, he⟩ => ⟨name, _, he⟩
    | atEndMark =>
      rw [hend] at hstop
      refine Or.inr ⟨rfl, hstop, ?_⟩
      rw [parse, Run.result, hstop, hlast, withRest_cursor, withRest_forest, hcursor]
  · obtain ⟨n, d, hmoves, hstop, hlength, -⟩ := parse_eq_ok hf
    obtain ⟨-, hmoves', hstop'⟩ := hp.moves_run w
    obtain ⟨rfl, -, -⟩ := hmoves.eq_of_stop hstop hmoves' hstop'
    obtain ⟨i, hi, hiw⟩ := List.getElem_of_mem hmem
    have hle := hfirst i (by rw [List.getElem?_eq_getElem hi, hiw])
    omega

/-- For `S → a $ b`, the run on `a$q` reads no further than the `$`. So does the run on `a`, which
is parsed. -/
theorem outcome_of_agree_interrupted : ∃ p, interrupted.compile = .ok p ∧
    (p.run ['a', '$', 'q']).last.cursor = 1 ∧
    (['a'] ++ [endMark]).take 2 = (['a', '$', 'q'] ++ [endMark]).take 2 ∧
    (p.run ['a']).last.cursor = 1 ∧ p.parse ['a'] = .ok (p.run ['a', '$', 'q']).last.forest := by
  obtain ⟨p, hp⟩ := Grammar.exists_compile (g := interrupted) (by decide +kernel)
  have hrun : (interrupted.compile.map fun p =>
      ((p.run ['a', '$', 'q']).last.cursor, (p.run ['a', '$', 'q']).stop)) =
      .ok (1, .atEndMark) := by
    decide +kernel
  rw [hp] at hrun
  obtain ⟨hcursor, hstop⟩ := Prod.mk.inj (Except.ok.inj hrun)
  obtain ⟨-, -, hagree, -⟩ := outcome_of_agree hp ['a', '$', 'q']
  obtain ⟨hcursor', hcase⟩ := hagree ['a'] (by rw [hcursor]; decide)
  rw [hcursor] at hcursor' hcase
  obtain ⟨e, hfailed, -⟩ | ⟨-, -, hparse⟩ := hcase
  · cases hstop.symm.trans hfailed
  · exact ⟨p, hp, hcursor, by decide, hcursor', hparse⟩

end Parser

end PredictiveParsing
