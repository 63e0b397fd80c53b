import Mathlib
import PredictiveParsing.Derivation
import PredictiveParsing.Proofs.Facts.Saturated

/-!
# What the facts say about derivations

The facts about a grammar are exact: a sequence can vanish iff it derives the empty sequence, a
terminal can stand first iff a derivation puts it there, and a terminal can follow a nonterminal iff
it stands behind it in something that a nonterminal derives.

* `derives_nil_of_within`, `exists_derives_of_within`, `follows_of_within`: what has been found has
  a derivation, by induction on the height at which it was found;
* `isNullableSeq_of_derives`, `mem_firstSeq_of_derives`: no step of a derivation adds to what the
  facts say of a sequence;
* `Followed`, `followed_of_derives`: whatever is derived is followed as the facts say;
* **`isNullableSeq_iff_derives`**, **`mem_firstSeq_iff_begins`**, **`mem_followOf_iff_follows`**: the
  meaning of the facts;
* **`nullable_first_exact`**, **`follow_exact`**: the same for every grammar with rules.
-/

namespace PredictiveParsing

namespace NumberedGrammar

open Facts

variable {g : NumberedGrammar} {A B N X t height : ℕ} {as bs u v body symbols : List ℕ}

theorem derives_of_mem_rules (h : (A, body) ∈ g.rules) : g.Derives [A] body :=
  PredictiveParsing.Derives.of_rule h

theorem derives_refl (symbols : List ℕ) : g.Derives symbols symbols :=
  PredictiveParsing.Derives.refl symbols

/-! ## Vanishing -/

theorem derives_nil_of_forall (h : ∀ X ∈ symbols, g.Derives [X] []) : g.Derives symbols [] := by
  induction symbols with
  | nil => exact derives_refl []
  | cons X symbols ih =>
    have hX := h X List.mem_cons_self
    have hrest := ih fun Y hY => h Y (List.mem_cons_of_mem _ hY)
    exact hX.append hrest

theorem derives_nil_of_within (h : Within (fun A body => (A, body) ∈ g.rules) height A) :
    g.Derives [A] [] := by
  induction height generalizing A with
  | zero => exact h.elim
  | succ height ih =>
    obtain ⟨body, hr, hbody⟩ := h
    exact (derives_of_mem_rules hr).trans (derives_nil_of_forall fun X hX => ih (hbody X hX))

theorem derives_nil_of_isNullableSeq (hg : g.WellFormed)
    (h : g.facts.isNullableSeq symbols = true) : g.Derives symbols [] :=
  derives_nil_of_forall fun X hX =>
    derives_nil_of_within (within_of_isNullable hg (isNullableSeq_iff.1 h X hX))

/-! ## Standing first -/

theorem exists_derives_of_place (hu : g.Derives u []) (hX : ∃ rest, g.Derives [X] (t :: rest)) :
    ∃ rest, g.Derives (u ++ X :: v) (t :: rest) := by
  obtain ⟨rest, hX⟩ := hX
  exact ⟨rest ++ v, hu.append (hX.append (derives_refl v))⟩

theorem exists_derives_of_within (hg : g.WellFormed)
    (h : Within (g.Clause g.facts t .first) height A) : ∃ rest, g.Derives [A] (t :: rest) := by
  induction height generalizing A with
  | zero => exact h.elim
  | succ height ih =>
    obtain ⟨premises, ⟨_, body, hr, rfl, u, X, v, rfl, hu, hX⟩, hpremises⟩ := h
    have hvanish := derives_nil_of_isNullableSeq hg hu
    have hfirst : ∃ rest, g.Derives [X] (t :: rest) := by
      rcases hX with ⟨-, rfl, -⟩ | ⟨-, rfl⟩
      · exact ⟨[], derives_refl [X]⟩
      · exact ih (hpremises X List.mem_cons_self)
    obtain ⟨rest, hrest⟩ := exists_derives_of_place (v := v) hvanish hfirst
    exact ⟨rest, (derives_of_mem_rules hr).trans hrest⟩

theorem begins_of_mem_firstOf (hg : g.WellFormed) (h : t ∈ g.facts.firstOf X) :
    g.Begins [X] t := by
  by_cases hX : g.isTerminal X = true
  · obtain rfl := (mem_firstOf_terminal hg hX).1 h
    exact ⟨hX, [], derives_refl [t]⟩
  · have hlt := not_isTerminal_iff.1 (Bool.not_eq_true _ ▸ hX)
    have hwithin := within_of_mem_firstOf hg hlt h
    exact ⟨isTerminal_of_within hwithin, exists_derives_of_within hg hwithin⟩

theorem begins_of_mem_firstSeq (hg : g.WellFormed) (h : t ∈ g.facts.firstSeq symbols) :
    g.Begins symbols t := by
  obtain ⟨u, X, v, rfl, hu, hX⟩ := mem_firstSeq.1 h
  obtain ⟨hterminal, hfirst⟩ := begins_of_mem_firstOf hg hX
  exact ⟨hterminal, exists_derives_of_place (derives_nil_of_isNullableSeq hg hu) hfirst⟩

/-! ## Steps of a derivation

A production says no more of its nonterminal than the facts do. So the facts about what a step
yields hold before the step as well. -/

theorem isNullableSeq_of_mem_rules (hg : g.WellFormed) (hr : (A, body) ∈ g.rules)
    (h : g.facts.isNullableSeq (body ++ v) = true) : g.facts.isNullableSeq (A :: v) = true := by
  rw [isNullableSeq_append] at h
  exact isNullableSeq_cons.2 ⟨(isNullable_iff hg).2 ⟨body, hr, h.1⟩, h.2⟩

theorem mem_firstSeq_of_mem_rules (hg : g.WellFormed) (hr : (A, body) ∈ g.rules)
    (h : t ∈ g.facts.firstSeq (body ++ v)) : t ∈ g.facts.firstSeq (A :: v) := by
  rw [mem_firstSeq_append] at h
  rw [mem_firstSeq_cons]
  rcases h with h | ⟨hbody, h⟩
  · exact Or.inl ((mem_firstOf_iff hg (hg.lt_of_mem_rules hr)).2 ⟨body, hr, h⟩)
  · exact Or.inr ⟨(isNullable_iff hg).2 ⟨body, hr, hbody⟩, h⟩

theorem isNullableSeq_of_produces (hg : g.WellFormed)
    (hstep : Produces (fun A body => (A, body) ∈ g.rules) as bs)
    (h : g.facts.isNullableSeq bs = true) : g.facts.isNullableSeq as = true := by
  obtain @⟨before, A, body, after, hr⟩ := hstep
  rw [List.append_assoc, isNullableSeq_append] at h
  exact isNullableSeq_append.2 ⟨h.1, isNullableSeq_of_mem_rules hg hr h.2⟩

theorem mem_firstSeq_of_produces (hg : g.WellFormed)
    (hstep : Produces (fun A body => (A, body) ∈ g.rules) as bs)
    (h : t ∈ g.facts.firstSeq bs) : t ∈ g.facts.firstSeq as := by
  obtain @⟨before, A, body, after, hr⟩ := hstep
  rw [List.append_assoc, mem_firstSeq_append] at h
  exact mem_firstSeq_append.2 (h.imp_right (And.imp_right (mem_firstSeq_of_mem_rules hg hr)))

theorem isNullableSeq_of_derives (hg : g.WellFormed) (hder : g.Derives as bs)
    (h : g.facts.isNullableSeq bs = true) : g.facts.isNullableSeq as = true := by
  induction hder using Relation.ReflTransGen.head_induction_on with
  | refl => exact h
  | head hstep _ ih => exact isNullableSeq_of_produces hg hstep ih

theorem mem_firstSeq_of_derives (hg : g.WellFormed) (hder : g.Derives as bs)
    (h : t ∈ g.facts.firstSeq bs) : t ∈ g.facts.firstSeq as := by
  induction hder using Relation.ReflTransGen.head_induction_on with
  | refl => exact h
  | head hstep _ ih => exact mem_firstSeq_of_produces hg hstep ih

/-- **A sequence can vanish** iff it derives the empty sequence. -/
theorem isNullableSeq_iff_derives (hg : g.WellFormed) :
    g.facts.isNullableSeq symbols = true ↔ g.Derives symbols [] :=
  ⟨derives_nil_of_isNullableSeq hg, fun h => isNullableSeq_of_derives hg h rfl⟩

theorem mem_firstSeq_terminal (hg : g.WellFormed) (ht : g.isTerminal t = true) (v : List ℕ) :
    t ∈ g.facts.firstSeq (t :: v) :=
  mem_firstSeq_cons.2 (Or.inl ((mem_firstOf_terminal hg ht).2 rfl))

/-- **A terminal stands first** iff a derivation puts it there. -/
theorem mem_firstSeq_iff_begins (hg : g.WellFormed) :
    t ∈ g.facts.firstSeq symbols ↔ g.Begins symbols t := by
  refine ⟨begins_of_mem_firstSeq hg, ?_⟩
  rintro ⟨hterminal, rest, hder⟩
  exact mem_firstSeq_of_derives hg hder (mem_firstSeq_terminal hg hterminal rest)

theorem isNullable_iff_derives (hg : g.WellFormed) :
    g.facts.isNullable X = true ↔ g.Derives [X] [] := by
  rw [← isNullableSeq_iff_derives hg, isNullableSeq_cons]
  simp

theorem mem_firstOf_iff_begins (hg : g.WellFormed) :
    t ∈ g.facts.firstOf X ↔ g.Begins [X] t := by
  rw [← mem_firstSeq_iff_begins hg, mem_firstSeq_cons]
  simp [firstSeq]

/-! ## Following -/

theorem follows_of_within (hg : g.WellFormed)
    (h : Within (g.Clause g.facts t .follow) height B) : g.Follows B t := by
  induction height generalizing B with
  | zero => exact h.elim
  | succ height ih =>
    obtain ⟨premises, ⟨A, body, hr, u, v, rfl, -, hv⟩, hpremises⟩ := h
    have hrule := derives_of_mem_rules hr
    rcases hv with ⟨ht, -⟩ | ⟨hv, rfl⟩
    · -- The production puts `t` behind `B`.
      obtain ⟨hterminal, rest, hrest⟩ := begins_of_mem_firstSeq hg ht
      have htail := hrest.context (u ++ [B]) []
      simp only [List.append_assoc, List.singleton_append, List.append_nil] at htail
      exact ⟨hterminal, A, hg.lt_of_mem_rules hr, u, rest, hrule.trans htail⟩
    · -- All behind `B` vanishes, and `t` follows the left side.
      obtain ⟨hterminal, N, hN, before, after, hder⟩ := ih (hpremises A List.mem_cons_self)
      have hleft := hrule.context before (t :: after)
      have htail := (derives_nil_of_isNullableSeq hg hv).context (before ++ u ++ [B]) (t :: after)
      simp only [List.append_assoc, List.nil_append, List.cons_append] at hleft htail
      refine ⟨hterminal, N, hN, before ++ u, after, hder.trans (hleft.trans ?_)⟩
      rw [List.append_assoc]
      exact htail

theorem follows_of_mem_followOf (hg : g.WellFormed) (h : t ∈ g.facts.followOf B) :
    g.Follows B t :=
  follows_of_within hg ((has_facts hg (a := .follow)).1 h)

/-- Whatever can stand first behind a nonterminal of the sequence is known to follow it. -/
def Followed (g : NumberedGrammar) : List ℕ → Prop
  | [] => True
  | X :: symbols =>
    (g.isTerminal X = false → ∀ t ∈ g.facts.firstSeq symbols, t ∈ g.facts.followOf X) ∧
      Followed g symbols

theorem Followed.of_append (h : g.Followed (u ++ v)) : g.Followed v := by
  induction u with
  | nil => exact h
  | cons X u ih => exact ih h.2

/-- **A production in the place of its nonterminal**: behind its last symbols comes what comes behind
the nonterminal. -/
theorem Followed.expand (hg : g.WellFormed) (hr : (A, u ++ body) ∈ g.rules)
    (h : g.Followed (A :: v)) : g.Followed (body ++ v) := by
  induction body generalizing u with
  | nil => exact h.2
  | cons X body ih =>
    refine ⟨fun hX t ht => ?_, ih (u := u ++ [X]) (by simpa using hr)⟩
    replace ht := mem_firstSeq_append.1 ht
    have hA := not_isTerminal_iff.2 (hg.lt_of_mem_rules hr)
    exact (mem_followOf_iff hg).2
      ⟨A, u, body, hr, hX, ht.imp_right (And.imp_right (h.1 hA t))⟩

theorem Followed.produces (hg : g.WellFormed)
    (hstep : Produces (fun A body => (A, body) ∈ g.rules) as bs) (h : g.Followed as) :
    g.Followed bs := by
  obtain @⟨before, A, body, after, hr⟩ := hstep
  induction before with
  | nil => exact h.expand hg (u := []) hr
  | cons X before ih =>
    have hrest : Produces (fun A body => (A, body) ∈ g.rules) _ _ := .replace before after hr
    exact ⟨fun hX t ht => h.1 hX t (mem_firstSeq_of_produces hg hrest ht), ih h.2⟩

/-- **Whatever a symbol derives** is followed as the facts say. -/
theorem followed_of_derives (hg : g.WellFormed) (h : g.Derives [N] symbols) :
    g.Followed symbols := by
  induction h with
  | refl => exact ⟨fun _ t ht => absurd ht IndexSet.notMem_empty, trivial⟩
  | tail _ hstep ih => exact ih.produces hg hstep

/-- **A terminal follows a nonterminal** iff it stands behind it in something that a nonterminal
derives. -/
theorem mem_followOf_iff_follows (hg : g.WellFormed) (hA : A < g.nonterminals.length) :
    t ∈ g.facts.followOf A ↔ g.Follows A t := by
  refine ⟨follows_of_mem_followOf hg, ?_⟩
  rintro ⟨hterminal, N, -, before, after, hder⟩
  have hfollowed := (followed_of_derives hg hder).of_append
  exact hfollowed.1 (not_isTerminal_iff.2 hA) t (mem_firstSeq_terminal hg hterminal after)

end NumberedGrammar

/-! ## Grammars with rules -/

namespace Grammar

variable {g : Grammar}

/-- **What vanishes and what stands first is found exactly**, for every grammar with rules. The
facts about a sequence of symbols say whether it derives the empty sequence, and which terminals it
can derive something from; so do those about a nonterminal. -/
theorem nullable_first_exact (h : g.rules ≠ []) : ∃ n, g.number? = some n ∧
    (∀ symbols, (n.facts.isNullableSeq symbols = true ↔ n.Derives symbols []) ∧
      ∀ t, t ∈ n.facts.firstSeq symbols ↔ n.Begins symbols t) ∧
    ∀ A < n.nonterminals.length, (n.facts.isNullable A = true ↔ n.Derives [A] []) ∧
      ∀ t, t ∈ n.facts.firstOf A ↔ n.Begins [A] t := by
  obtain ⟨n, hn, hwf⟩ := exists_number? h
  refine ⟨n, hn, fun symbols => ⟨?_, fun t => ?_⟩, fun A _ => ⟨?_, fun t => ?_⟩⟩
  · exact NumberedGrammar.isNullableSeq_iff_derives hwf
  · exact NumberedGrammar.mem_firstSeq_iff_begins hwf
  · exact NumberedGrammar.isNullable_iff_derives hwf
  · exact NumberedGrammar.mem_firstOf_iff_begins hwf

/-- `P → Q R c`, `Q → a | ε`, `R → b | ε`. -/
def optional : Grammar where
  rules := [.ofText ⟨'P', by decide, by decide⟩ ['Q', 'R', 'c'],
    .ofText ⟨'Q', by decide, by decide⟩ ['a'], .ofText ⟨'Q', by decide, by decide⟩ [],
    .ofText ⟨'R', by decide, by decide⟩ ['b'], .ofText ⟨'R', by decide, by decide⟩ []]

theorem number?_optional : optional.number? = some (optional.number 'P') := rfl

/-- `Q R` can vanish, and `b` can stand first in it, but not `c`. Neither can `P` vanish, in which
`c` can stand first. -/
theorem nullable_first_exact_optional : ∃ n, optional.number? = some n ∧ n.Derives [1, 2] [] ∧
    n.Begins [1, 2] (n.code 'b') ∧ ¬ n.Begins [1, 2] (n.code 'c') ∧ ¬ n.Derives [0] [] ∧
    n.Begins [0] (n.code 'c') := by
  obtain ⟨n, hn, hseq, hsymbol⟩ := nullable_first_exact (g := optional) (by decide)
  obtain rfl : optional.number 'P' = n := Option.some.inj (number?_optional.symm.trans hn)
  obtain ⟨hvanish, hfirst⟩ := hseq [1, 2]
  obtain ⟨hstart, hstarts⟩ := hsymbol 0 (by decide)
  refine ⟨_, hn, ?_⟩
  rw [← hvanish, ← hfirst, ← hfirst, ← hstart, ← hstarts]
  decide +kernel

/-- **What follows is found exactly**, for every grammar with rules: a terminal is said to follow a
nonterminal iff it stands right behind it in something that some nonterminal derives. -/
theorem follow_exact (h : g.rules ≠ []) : ∃ n, g.number? = some n ∧
    ∀ A < n.nonterminals.length, ∀ t, t ∈ n.facts.followOf A ↔ n.Follows A t := by
  obtain ⟨n, hn, hwf⟩ := exists_number? h
  exact ⟨n, hn, fun A hA t => NumberedGrammar.mem_followOf_iff_follows hwf hA⟩

/-- Behind `Q` come `b` and, where `R` vanishes, `c`; behind `P` comes the end mark, which does not
come behind `Q`. -/
theorem follow_exact_optional : ∃ n, optional.number? = some n ∧ n.Follows 1 (n.code 'b') ∧
    n.Follows 1 (n.code 'c') ∧ ¬ n.Follows 1 n.endMark ∧ n.Follows 0 n.endMark := by
  obtain ⟨n, hn, hfollow⟩ := follow_exact (g := optional) (by decide)
  obtain rfl : optional.number 'P' = n := Option.some.inj (number?_optional.symm.trans hn)
  refine ⟨_, hn, ?_⟩
  rw [← hfollow 1 (by decide), ← hfollow 1 (by decide), ← hfollow 1 (by decide),
    ← hfollow 0 (by decide)]
  decide +kernel

end Grammar

end PredictiveParsing
