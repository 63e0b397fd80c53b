import PredictiveParsing.Text.Basic

/-!
# Symbols

Every character can be a symbol of a grammar. Two of them are reserved: `$` marks the end of the
input, and `ε` stands for nothing.

* `endMark`, `epsilon`;
* `Nonterminal`: a character that can be the left side of a rule.
-/

namespace PredictiveParsing

/-- The symbol after the last symbol of every input. -/
def endMark : Char := '$'

/-- The letter that shows an empty sequence of symbols. It never is a symbol of a production. -/
def epsilon : Char := 'ε'

/-- A character that can be the left side of a rule: neither of the reserved ones. -/
structure Nonterminal where
  char : Char
  ne_endMark : char ≠ endMark
  ne_epsilon : char ≠ epsilon
deriving DecidableEq

/-- The nonterminal that a character is, if it is not reserved. -/
def Nonterminal.ofChar? (c : Char) : Option Nonterminal :=
  if h : c ≠ endMark ∧ c ≠ epsilon then some ⟨c, h.1, h.2⟩ else none

theorem Nonterminal.ofChar?_eq_none_iff {c : Char} :
    Nonterminal.ofChar? c = none ↔ c = endMark ∨ c = epsilon := by
  unfold Nonterminal.ofChar?
  split <;> rename_i h
  · simp [h.1, h.2]
  · simp only [true_iff]
    by_cases hc : c = endMark
    · exact .inl hc
    · exact .inr (Decidable.by_contra fun he => h ⟨hc, he⟩)

theorem Nonterminal.ofChar?_eq_some_iff {c : Char} {A : Nonterminal} :
    Nonterminal.ofChar? c = some A ↔ A.char = c := by
  unfold Nonterminal.ofChar?
  constructor
  · intro h
    split at h
    · rw [← Option.some.inj h]
    · cases h
  · rintro rfl
    rw [dif_pos ⟨A.ne_endMark, A.ne_epsilon⟩]

theorem Nonterminal.eq_of_char_eq {A B : Nonterminal} (h : A.char = B.char) : A = B :=
  Option.some.inj ((ofChar?_eq_some_iff.2 h).symm.trans (ofChar?_eq_some_iff.2 rfl))

end PredictiveParsing
