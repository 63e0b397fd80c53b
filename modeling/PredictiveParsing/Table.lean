import PredictiveParsing.Facts.Basic

/-!
# Parsing tables

The table says which production of a nonterminal to expand on a lookahead. A production claims the
terminals that can stand first in what it derives and, if it can vanish, those that can follow its
nonterminal. A cell can be claimed once only, even by one production.

* `Cell`, `NumberedGrammar.claims`: every claim, in order;
* `Table`, `Table.get?`, `Table.size`;
* `Table.ofClaims`: the table of some claims, or the first claim to a cell that is taken;
* **`NumberedGrammar.table`**: the table of a grammar under some facts.
-/

namespace PredictiveParsing

/-- A filled cell of a table: the production of the nonterminal to expand on the terminal. -/
structure Cell where
  nonterminal : Nat
  terminal : Nat
  production : Nat
deriving DecidableEq

/-- A parsing table, as the list of its filled cells. -/
structure Table where
  cells : List Cell
deriving DecidableEq

namespace Table

/-- The table without cells. -/
def empty : Table := ⟨[]⟩

/-- The production to expand for a nonterminal on a terminal. -/
def get? (T : Table) (A t : Nat) : Option Nat :=
  (T.cells.find? fun c => c.nonterminal = A ∧ c.terminal = t).map (·.production)

/-- The number of filled cells. -/
def size (T : Table) : Nat := T.cells.length

/-- The table with one more cell, unless the cell is taken; then the claim is returned. -/
def register (T : Table) (c : Cell) : Except Cell Table :=
  if (T.get? c.nonterminal c.terminal).isSome then .error c else .ok ⟨T.cells ++ [c]⟩

/-- The table of some claims, or the first claim to a cell that is taken. -/
def ofClaims (claims : List Cell) : Except Cell Table := claims.foldlM register empty

theorem register_eq_error_iff {T : Table} {c d : Cell} :
    T.register c = .error d ↔ (T.get? c.nonterminal c.terminal).isSome ∧ c = d := by
  unfold register
  split <;> simp_all

theorem get?_of_register {T T' : Table} {c : Cell} (h : T.register c = .ok T') (A t : Nat) :
    T'.get? A t = if A = c.nonterminal ∧ t = c.terminal then some c.production else T.get? A t := by
  unfold register at h
  split at h
  · cases h
  · next hfree =>
    cases h
    by_cases hc : A = c.nonterminal ∧ t = c.terminal
    · obtain ⟨rfl, rfl⟩ := hc
      have hnone : T.cells.find? (fun d => d.nonterminal = c.nonterminal ∧ d.terminal = c.terminal)
          = none := by simpa [get?] using hfree
      simp only [get?, List.find?_append, hnone]
      simp
    · have hne : ¬ (c.nonterminal = A ∧ c.terminal = t) := fun h => hc ⟨h.1.symm, h.2.symm⟩
      simp [get?, List.find?_append, hc, hne]

end Table

/-- The terminals that a production of `A` claims, in the order of the claims. -/
def Facts.claimed (F : Facts) (A : Nat) (body : List Nat) : List Nat :=
  (F.firstSeq body).toList ++ if F.isNullableSeq body then (F.followOf A).toList else []

namespace NumberedGrammar

variable (g : NumberedGrammar)

/-- All claims, in the order of nonterminals, of their productions, and of the claims of each. -/
def claims (F : Facts) : List Cell :=
  g.productions.zipIdx.flatMap fun (bodies, A) =>
    bodies.zipIdx.flatMap fun (body, i) => (F.claimed A body).map fun t => ⟨A, t, i⟩

/-- The error for a claim to a cell that is taken. -/
def conflict (c : Cell) : Error :=
  .ambiguous (g.nameOf c.nonterminal) (g.nameOf c.terminal)
    (g.bodyText (g.body c.nonterminal c.production))

/-- **The table of a grammar under some facts**, or its first conflict. -/
def table (F : Facts) : Except Error Table := (Table.ofClaims (g.claims F)).mapError g.conflict

end NumberedGrammar

end PredictiveParsing
