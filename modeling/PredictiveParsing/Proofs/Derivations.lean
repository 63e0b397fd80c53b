import Mathlib
import PredictiveParsing.Derivation
import PredictiveParsing.Proofs.Numbering

/-!
# Derivations step by step

The first symbol of a sequence stays in front until one of its own rules is used, and with it goes
everything that it derives before the rest is touched. Derivations over characters and over numbers
are the same.

* `Produces.of_cons`: a step is taken at the first symbol or behind it;
* `Derives.exists_of_cons`, **`Derives.exists_rule`**: a first symbol without rules stays, and
  another one is replaced by a rule;
* `Derives.exists_of_concat`: a last symbol without rules stays;
* `Derives.forall_mem`, `Derives.map`: what holds of all symbols, and other symbols in their place;
* `mem_rules_code`, **`derives_code_iff`**, `begins_code_iff`: derivations by number are those by
  character.
-/

namespace PredictiveParsing

section

variable {σ : Type} {rule : σ → List σ → Prop} {A a : σ} {as bs : List σ}

/-! ## The first symbol -/

theorem Produces.of_cons (h : Produces rule (A :: as) bs) :
    (∃ body, rule A body ∧ bs = body ++ as) ∨ ∃ cs, Produces rule as cs ∧ bs = A :: cs := by
  generalize hsource : A :: as = source at h
  obtain @⟨before, B, body, after, hr⟩ := h
  cases before with
  | nil =>
    obtain ⟨rfl, rfl⟩ := List.cons.inj hsource
    exact Or.inl ⟨body, hr, rfl⟩
  | cons C before =>
    obtain ⟨rfl, rfl⟩ := List.cons.inj hsource
    exact Or.inr ⟨_, .replace before after hr, rfl⟩

theorem not_produces_nil : ¬ Produces rule [] bs := by
  intro h
  generalize hsource : [] = source at h
  obtain ⟨before, after, hr⟩ := h
  exact absurd hsource.symm (by simp)

theorem Derives.eq_nil (h : Derives rule [] bs) : bs = [] := by
  induction h with
  | refl => rfl
  | tail _ hstep ih =>
    rw [ih] at hstep
    exact absurd hstep not_produces_nil

theorem Derives.exists_of_cons (ha : ∀ body, ¬ rule a body) (h : Derives rule (a :: as) bs) :
    ∃ cs, bs = a :: cs ∧ Derives rule as cs := by
  induction h with
  | refl => exact ⟨as, rfl, .refl as⟩
  | tail _ hstep ih =>
    obtain ⟨cs, rfl, hcs⟩ := ih
    rcases hstep.of_cons with ⟨body, hr, -⟩ | ⟨ds, hds, rfl⟩
    · exact absurd hr (ha body)
    · exact ⟨ds, rfl, hcs.tail hds⟩

/-- **A first symbol that does not stay is replaced by one of its rules**, and this can be done
before anything else. -/
theorem Derives.exists_rule (hne : A ≠ a) (h : Derives rule (A :: as) (a :: bs)) :
    ∃ body, rule A body ∧ Derives rule (body ++ as) (a :: bs) := by
  generalize hsource : A :: as = source at h
  induction h using Relation.ReflTransGen.head_induction_on generalizing as with
  | refl => exact absurd (List.cons.inj hsource).1 hne
  | head hstep hrest ih =>
    rw [← hsource] at hstep
    rcases hstep.of_cons with ⟨body, hr, rfl⟩ | ⟨cs, hcs, rfl⟩
    · exact ⟨body, hr, hrest⟩
    · obtain ⟨body, hr, hbody⟩ := ih rfl
      have hfirst := Produces.context body [] hcs
      rw [List.append_nil, List.append_nil] at hfirst
      exact ⟨body, hr, .head hfirst hbody⟩

/-! ## The last symbol -/

theorem Produces.of_concat (ha : ∀ body, ¬ rule a body) (h : Produces rule (as ++ [a]) bs) :
    ∃ cs, bs = cs ++ [a] ∧ Produces rule as cs := by
  generalize hsource : as ++ [a] = source at h
  obtain @⟨before, B, body, after, hr⟩ := h
  rcases List.eq_nil_or_concat' after with rfl | ⟨after, b, rfl⟩
  · obtain ⟨-, heq⟩ := List.append_inj' hsource rfl
    obtain rfl := (List.cons.inj heq).1
    exact absurd hr (ha body)
  · rw [← List.cons_append, ← List.append_assoc] at hsource
    obtain ⟨rfl, heq⟩ := List.append_inj' hsource rfl
    obtain rfl := (List.cons.inj heq).1
    exact ⟨before ++ body ++ after, by simp, .replace before after hr⟩

theorem Derives.exists_of_concat (ha : ∀ body, ¬ rule a body) (h : Derives rule (as ++ [a]) bs) :
    ∃ cs, bs = cs ++ [a] ∧ Derives rule as cs := by
  induction h with
  | refl => exact ⟨as, rfl, .refl as⟩
  | tail _ hstep ih =>
    obtain ⟨cs, rfl, hcs⟩ := ih
    obtain ⟨ds, rfl, hds⟩ := hstep.of_concat ha
    exact ⟨ds, rfl, hcs.tail hds⟩

/-! ## Other symbols -/

theorem Derives.forall_mem {P : σ → Prop} (hrule : ∀ A body, rule A body → ∀ b ∈ body, P b)
    (h : Derives rule as bs) (has : ∀ a ∈ as, P a) : ∀ b ∈ bs, P b := by
  induction h with
  | refl => exact has
  | tail _ hstep ih =>
    obtain @⟨before, A, body, after, hr⟩ := hstep
    intro b hb
    rw [List.append_assoc, List.mem_append, List.mem_append] at hb
    rcases hb with hb | hb | hb
    · exact ih b (List.mem_append_left _ hb)
    · exact hrule A body hr b hb
    · exact ih b (List.mem_append_right _ (List.mem_cons_of_mem _ hb))

theorem Derives.map {τ : Type} {rule' : τ → List τ → Prop} {f : σ → τ}
    (hrule : ∀ A body, rule A body → rule' (f A) (body.map f)) (h : Derives rule as bs) :
    Derives rule' (as.map f) (bs.map f) := by
  induction h with
  | refl => exact .refl _
  | tail _ hstep ih =>
    obtain @⟨before, A, body, after, hr⟩ := hstep
    have hstep : Produces rule' _ _ := .replace (before.map f) (after.map f) (hrule A body hr)
    rw [List.map_append, List.map_append]
    rw [List.map_append, List.map_cons] at ih
    exact ih.tail hstep

end

/-! ## Numbers and characters -/

namespace Grammar

variable {g : Grammar} {s a : Char} {body : List ℕ} {as bs : Text}

theorem mem_rules_code (hs : s ∈ g.nonterminals) (ha : [a] ∈ (g.number s).names) :
    ((g.number s).code a, body) ∈ (g.number s).rules ↔
      ∃ right ∈ g.productions a, body = right.map (g.number s).code := by
  constructor
  · intro h
    have hlt := (wellFormed_number hs).lt_of_mem_rules h
    have hmem : a ∈ g.nonterminals := by
      by_contra hnot
      have hterm := NumberedGrammar.isTerminal_iff.1 ((isTerminal_code hs ha).2 hnot)
      omega
    rw [NumberedGrammar.mem_rules, bodies_code hs hmem] at h
    obtain ⟨right, hright, rfl⟩ := List.mem_map.1 h
    exact ⟨right, hright, rfl⟩
  · rintro ⟨right, hright, rfl⟩
    exact mem_rules_of_mem_productions hs hright

theorem Derives.mem_names (hs : s ∈ g.nonterminals) (h : g.Derives as bs)
    (has : ∀ a ∈ as, [a] ∈ (g.number s).names) : ∀ b ∈ bs, [b] ∈ (g.number s).names :=
  h.forall_mem (fun A right hright _ hb => Occurs.mem_names hs (Or.inr ⟨A, right, hright, hb⟩)) has

theorem Derives.code (hs : s ∈ g.nonterminals) (h : g.Derives as bs) :
    (g.number s).Derives (as.map (g.number s).code) (bs.map (g.number s).code) :=
  h.map fun _ _ => mem_rules_of_mem_productions hs

theorem map_label_code (has : ∀ a ∈ as, [a] ∈ (g.number s).names) :
    (as.map (g.number s).code).map (g.number s).label = as := by
  rw [List.map_map]
  exact (List.map_congr_left fun a ha => NumberedGrammar.label_code (has a ha)).trans
    (List.map_id as)

/-- **What symbols derive by number** is what they derive by character, symbol by symbol. -/
theorem derives_code_iff (hs : s ∈ g.nonterminals) (has : ∀ a ∈ as, [a] ∈ (g.number s).names)
    {symbols : List ℕ} : (g.number s).Derives (as.map (g.number s).code) symbols ↔
      ∃ bs, symbols = bs.map (g.number s).code ∧ g.Derives as bs := by
  constructor
  · intro h
    induction h with
    | refl => exact ⟨as, rfl, .refl as⟩
    | tail _ hstep ih =>
      obtain ⟨bs, hbs, hder⟩ := ih
      obtain @⟨before, A, body, after, hr⟩ := hstep
      obtain ⟨us, tail, rfl, hus, htail⟩ := List.map_eq_append_iff.1 hbs.symm
      obtain ⟨a, vs, rfl, rfl, hvs⟩ := List.map_eq_cons_iff.1 htail
      have ha := hder.mem_names hs has a (List.mem_append_right _ List.mem_cons_self)
      obtain ⟨right, hright, rfl⟩ := (mem_rules_code hs ha).1 hr
      refine ⟨us ++ right ++ vs, by rw [List.map_append, List.map_append, hus, hvs], ?_⟩
      exact hder.tail (.replace us vs hright)
  · rintro ⟨bs, rfl, h⟩
    exact h.code hs

theorem mem_names_start (hs : s ∈ g.nonterminals) :
    ∀ a ∈ [s, endMark], [a] ∈ (g.number s).names := by
  intro a ha
  rcases List.mem_cons.1 ha with rfl | ha
  · exact Occurs.mem_names hs (Or.inl hs)
  · exact List.mem_singleton.1 ha ▸ endMark_mem_names hs

theorem begins_code_iff (hs : s ∈ g.nonterminals) (has : ∀ a ∈ as, [a] ∈ (g.number s).names)
    {t : ℕ} : (g.number s).Begins (as.map (g.number s).code) t ↔
      ∃ c ∉ g.nonterminals, t = (g.number s).code c ∧ ∃ rest, g.Derives as (c :: rest) := by
  constructor
  · rintro ⟨hterm, rest, h⟩
    obtain ⟨bs, hbs, hder⟩ := (derives_code_iff hs has).1 h
    obtain ⟨c, rest, rfl, rfl, -⟩ := List.map_eq_cons_iff.1 hbs.symm
    have hc := hder.mem_names hs has c List.mem_cons_self
    exact ⟨c, (isTerminal_code hs hc).1 hterm, rfl, rest, hder⟩
  · rintro ⟨c, hc, rfl, rest, h⟩
    exact ⟨(isTerminal_code hs (h.mem_names hs has c List.mem_cons_self)).2 hc, _, h.code hs⟩

end Grammar

end PredictiveParsing
