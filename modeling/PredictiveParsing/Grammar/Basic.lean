import PredictiveParsing.Error

/-!
# Grammars

A grammar is the list of its rules in the order in which they were given.

* `Rule`, `Grammar`, `Grammar.add`, `Grammar.addRule?`;
* the views of a grammar: `start?`, `nonterminals`, `productions`, `terminals`;
* `distinct`: a list without its repetitions, **`nodup_distinct`**.
-/

namespace PredictiveParsing

/-! ## Lists without repetitions -/

section Distinct

variable {α : Type} [DecidableEq α]

/-- The first occurrence of every entry. -/
def distinct : List α → List α
  | [] => []
  | a :: as => a :: (distinct as).filter (· ≠ a)

@[simp]
theorem mem_distinct {a : α} {as : List α} : a ∈ distinct as ↔ a ∈ as := by
  induction as with
  | nil => simp [distinct]
  | cons b as ih =>
    by_cases h : a = b
    · simp [distinct, h]
    · simp [distinct, h, ih]

theorem nodup_distinct (as : List α) : (distinct as).Nodup := by
  induction as with
  | nil => exact .nil
  | cons a as ih => exact List.nodup_cons.2 ⟨by simp, ih.filter _⟩

end Distinct

/-! ## Rules -/

/-- A rule: the symbols on the right can stand for the one on the left. -/
structure Rule where
  left : Nonterminal
  right : Text
  epsilon_notMem : epsilon ∉ right
deriving DecidableEq

/-- The rule whose right side is a text, one symbol per character. The letter `ε` counts for
nothing, so that it can be written for the empty production. -/
def Rule.ofText (left : Nonterminal) (text : Text) : Rule :=
  ⟨left, text.filter (· ≠ epsilon), by simp⟩

/-- A grammar: its rules, in the order in which they were added. -/
structure Grammar where
  rules : List Rule
deriving DecidableEq

namespace Grammar

/-- The grammar without rules. -/
def empty : Grammar := ⟨[]⟩

/-- The grammar with one more rule. -/
def add (g : Grammar) (r : Rule) : Grammar := ⟨g.rules ++ [r]⟩

/-- The grammar with one more rule, unless its left side is reserved. -/
def addRule? (g : Grammar) (left : Char) (right : Text) : Except Error Grammar :=
  match Nonterminal.ofChar? left with
  | some A => .ok (g.add (.ofText A right))
  | none => .error (.reservedNonterminal left)

variable (g : Grammar)

/-- The start symbol: the left side of the first rule. -/
def start? : Option Char := g.rules.head?.map (·.left.char)

/-- The left sides, in the order of their first rules. -/
def nonterminals : List Char := distinct (g.rules.map (·.left.char))

/-- The right sides that the rules give to a symbol. -/
def productions (A : Char) : List Text := (g.rules.filter (·.left.char = A)).map (·.right)

/-- The symbols of productions that are not left sides, without `$`, in the order in which they
appear when the productions of each nonterminal are read in turn. -/
def terminals : List Char :=
  distinct ((g.nonterminals.flatMap fun A => (g.productions A).flatten).filter fun c =>
    c ≠ endMark ∧ c ∉ g.nonterminals)

@[simp]
theorem rules_add (r : Rule) : (g.add r).rules = g.rules ++ [r] := rfl

variable {g}

theorem mem_nonterminals {A : Char} : A ∈ g.nonterminals ↔ ∃ r ∈ g.rules, r.left.char = A := by
  simp [nonterminals]

theorem mem_productions {A : Char} {right : Text} :
    right ∈ g.productions A ↔ ∃ r ∈ g.rules, r.left.char = A ∧ r.right = right := by
  simp [productions, and_assoc]

end Grammar

end PredictiveParsing
