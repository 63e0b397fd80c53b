import Mathlib
import PredictiveParsing.Proofs.Parser.Termination
import PredictiveParsing.Proofs.Renumbering.Basic

/-!
# Runs under other numbers

A parser does not see the numbers of its symbols: under other numbers it makes the same moves,
builds the same forest, and stops at the same place with the same error.

* `Config.renumber`: a configuration under other numbers;
* `exists_move`, `move?_renumber_error`: one move, or none;
* **`moves_renumber`**: any number of moves;
* **`parse_eq`**: the same trees and the same errors.
-/

namespace PredictiveParsing

/-- The configuration with other numbers for its pending symbols. -/
def Config.renumber (σ : Equiv.Perm ℕ) (c : Config) : Config :=
  { c with stack := c.stack.map fun e => ⟨σ e.symbol, e.node⟩ }

namespace Renumbers

open PredictiveParsing.Parser

variable {σ : Equiv.Perm ℕ} {p p' : Parser} {c d : Config} {m : Move} {stop : Stop} {top : Pending}
  {stack : List Pending} {n : ℕ}

theorem stack_renumber (hs : c.stack = top :: stack) : (c.renumber σ).stack =
    ⟨σ top.symbol, top.node⟩ :: stack.map fun e => ⟨σ e.symbol, e.node⟩ := by
  rw [Config.renumber, hs, List.map_cons]

theorem entries_map (first : ℕ) (body : List ℕ) :
    entries first (body.map σ) = (entries first body).map fun e => ⟨σ e.symbol, e.node⟩ := by
  induction body generalizing first with
  | nil => rfl
  | cons X body ih => rw [List.map_cons, entries_cons, entries_cons, List.map_cons, ih]

section

variable (h : Renumbers σ p.grammar p'.grammar)
include h

theorem expand_renumber (hs : c.stack = top :: stack) (body : List ℕ) :
    (c.renumber σ).expand p'.grammar (body.map σ) = (c.expand p.grammar body).renumber σ := by
  have hlabels : (body.map σ).map p'.grammar.label = body.map p.grammar.label := by
    rw [List.map_map]
    exact List.map_congr_left fun i _ => h.label_eq i
  rw [Config.expand_eq (stack_renumber hs), Config.expand_eq hs, Config.renumber, Config.renumber,
    hlabels, entries_map, List.map_append]
  simp only [List.map_eq_nil_iff]

theorem indexOf?_eq_some_iff (name : Text) (t : ℕ) :
    p'.grammar.indexOf? name = some (σ t) ↔ p.grammar.indexOf? name = some t := by
  rw [h.indexOf?_eq, Option.map_eq_some_iff]
  constructor
  · rintro ⟨i, hi, heq⟩
    rw [← σ.injective heq]
    exact hi
  · exact fun ht => ⟨t, ht, rfl⟩

variable (hp : p.Compiled) (hp' : p'.Compiled)
include hp hp'

theorem map_body_choice? (A : ℕ) (l : Char) :
    (p'.choice? (σ A) l).map (p'.grammar.body (σ A)) =
      (p.choice? A l).map fun i => (p.grammar.body A i).map σ := by
  rw [choice?, choice?, h.indexOf?_eq]
  cases p.grammar.indexOf? [l] with
  | none => rfl
  | some t => exact h.map_body_get? hp hp' A t

theorem choice?_eq_none {A : ℕ} {l : Char} (hi : p.choice? A l = none) :
    p'.choice? (σ A) l = none := by
  have hchoice := h.map_body_choice? hp hp' A l
  rwa [hi, Option.map_none, Option.map_eq_none_iff] at hchoice

/-- **The same move** can be made under other numbers, and it leads to the same configuration. -/
theorem exists_move (hm : p.move? c = .ok m) : ∃ m', p'.move? (c.renumber σ) = .ok m' ∧
    (c.renumber σ).apply p'.grammar m' = (c.apply p.grammar m).renumber σ := by
  obtain ⟨top, stack, hs, hend, ⟨hX, i, hi, rfl⟩ | ⟨ha, hl, rfl⟩⟩ := move?_eq_ok hm
  · have hchoice := h.map_body_choice? hp hp' top.symbol c.lookahead
    rw [hi, Option.map_some, Option.map_eq_some_iff] at hchoice
    obtain ⟨j, hj, hbody⟩ := hchoice
    refine ⟨_, move?_expand (stack_renumber hs) ?_ ((h.isTerminal_eq _).trans hX) hj, ?_⟩
    · rw [← h.endMark_eq]
      exact fun heq => hend (σ.injective heq)
    · change (c.renumber σ).expand p'.grammar (p'.grammar.body (σ top.symbol) j) = _
      rw [hbody, h.expand_renumber hs]
      rfl
  · refine ⟨_, move?_consume (stack_renumber hs) ?_ ((h.isTerminal_eq _).trans ha)
      ((h.indexOf?_eq_some_iff _ _).2 hl), ?_⟩
    · rw [← h.endMark_eq]
      exact fun heq => hend (σ.injective heq)
    · change (c.renumber σ).consume = c.consume.renumber σ
      rw [Config.consume, Config.consume, Config.renumber, Config.renumber, List.map_tail]

/-- **A run stops for the same reason** under other numbers. -/
theorem move?_renumber_error (hstop : p.move? c = .error stop) :
    p'.move? (c.renumber σ) = .error stop := by
  cases hs : c.stack with
  | nil =>
    rw [move?_nil hs] at hstop
    rw [move?_nil (by rw [Config.renumber, hs, List.map_nil]), hstop]
  | cons top stack =>
    have hlook : (c.renumber σ).lookahead = c.lookahead := rfl
    have hend : σ top.symbol = p'.grammar.endMark ↔ top.symbol = p.grammar.endMark := by
      rw [← h.endMark_eq, σ.injective.eq_iff]
    rw [move?_cons hs] at hstop
    rw [move?_cons (stack_renumber hs)]
    simp only [hlook, hend, h.isTerminal_eq, h.indexOf?_eq_some_iff, h.label_eq, h.nameOf_eq]
    split_ifs at hstop ⊢
    · exact hstop
    · exact hstop
    · cases hi : p.choice? top.symbol c.lookahead with
      | some i => rw [hi] at hstop; cases hstop
      | none =>
        rw [hi] at hstop
        rw [h.choice?_eq_none hp hp' hi]
        exact hstop

theorem moves_renumber (hmoves : p.Moves n c d) :
    p'.Moves n (c.renumber σ) (d.renumber σ) := by
  induction hmoves with
  | refl c => exact .refl _
  | step hm _ ih =>
    obtain ⟨m', hm', happly⟩ := h.exists_move hp hp' hm
    exact .step hm' (happly ▸ ih)

/-- **A parser does not see the numbers of its symbols.** It finds the same trees and the same
errors under others. -/
theorem parse_eq (input : Text) : p'.parse input = p.parse input := by
  obtain ⟨-, hmoves, hstop⟩ := hp.moves_run input
  obtain ⟨-, hmoves', hstop'⟩ := hp'.moves_run input
  have hinitial : (Config.initial p.grammar input).renumber σ = .initial p'.grammar input := by
    rw [Config.initial, Config.initial, Config.renumber, ← h.start_eq, ← h.endMark_eq, h.label_eq]
    rfl
  have hrun := h.moves_renumber hp hp' hmoves
  rw [hinitial] at hrun
  obtain ⟨hlast, hreason, -⟩ :=
    hrun.eq_of_stop (h.move?_renumber_error hp hp' hstop) hmoves' hstop'
  rw [parse, parse, Run.result, Run.result, ← hlast, ← hreason]
  rfl

end

end Renumbers

end PredictiveParsing
