import Mathlib
import PredictiveParsing.Proofs.Facts.Derivations
import PredictiveParsing.Proofs.Parser.Compiled
import PredictiveParsing.Proofs.Table.FirstConflict

/-!
# Which grammars have a table

A grammar has a table iff no terminal calls for two productions of one nonterminal. The table also
refuses a single production that claims a terminal twice, once as a first symbol and once as a
symbol that follows. But then two productions claim a terminal somewhere: the way that leads from
the nonterminal to the terminal stays among symbols that can vanish, and where it leaves them, one
production vanishes and another does not.

* `Overlap`, `not_overlap_iff`: two productions of a nonterminal are called for by one terminal;
* `overlap_of_within`: first symbols that also follow lead to an overlap;
* `exists_table_iff_not_overlap`: a table is made iff there is no overlap;
* `mem_claimed_iff_predicts`: the claims of a production by the derivations of the grammar;
* **`compile_ambiguous_iff`**: the grammars that are refused.
-/

namespace PredictiveParsing

namespace NumberedGrammar

variable {g : NumberedGrammar} {A t height : ℕ} {body body' : List ℕ}
  {calls calls' : ℕ → List ℕ → ℕ → Prop}

/-- Two productions of one nonterminal, in different places of its list, are called for by one
terminal. -/
def Overlap (g : NumberedGrammar) (calls : ℕ → List ℕ → ℕ → Prop) : Prop :=
  ∃ (A i j : ℕ) (body body' : List ℕ) (t : ℕ), i ≠ j ∧ (g.bodies A)[i]? = some body ∧
    (g.bodies A)[j]? = some body' ∧ calls A body t ∧ calls A body' t

theorem Overlap.mono (h : ∀ A body t, (A, body) ∈ g.rules → calls A body t → calls' A body t)
    (hoverlap : g.Overlap calls) : g.Overlap calls' := by
  obtain ⟨A, i, j, body, body', t, hij, hi, hj, ht, ht'⟩ := hoverlap
  exact ⟨A, i, j, body, body', t, hij, hi, hj,
    h A body t (mem_rules.2 (List.mem_of_getElem? hi)) ht,
    h A body' t (mem_rules.2 (List.mem_of_getElem? hj)) ht'⟩

theorem overlap_of_ne (hr : (A, body) ∈ g.rules) (hr' : (A, body') ∈ g.rules) (hne : body ≠ body')
    (ht : calls A body t) (ht' : calls A body' t) : g.Overlap calls := by
  obtain ⟨i, hi⟩ := List.getElem?_of_mem (mem_rules.1 hr)
  obtain ⟨j, hj⟩ := List.getElem?_of_mem (mem_rules.1 hr')
  refine ⟨A, i, j, body, body', t, ?_, hi, hj, ht, ht'⟩
  rintro rfl
  exact hne (Option.some.inj (hi.symm.trans hj))

theorem not_overlap_iff {claimed : ℕ → List ℕ → List ℕ} :
    (¬ g.Overlap fun A body t => t ∈ claimed A body) ↔ ∀ A, (g.bodies A).Pairwise
      fun body body' => List.Disjoint (claimed A body) (claimed A body') := by
  constructor
  · intro h A
    rw [List.pairwise_iff_getElem]
    intro i j hi hj hij t ht ht'
    exact h ⟨A, i, j, _, _, t, Nat.ne_of_lt hij, List.getElem?_eq_getElem hi,
      List.getElem?_eq_getElem hj, ht, ht'⟩
  · rintro h ⟨A, i, j, body, body', t, hij, hi, hj, ht, ht'⟩
    obtain ⟨hi', rfl⟩ := List.getElem?_eq_some_iff.1 hi
    obtain ⟨hj', rfl⟩ := List.getElem?_eq_some_iff.1 hj
    have hdisjoint := List.pairwise_iff_getElem.1 (h A)
    rcases Nat.lt_or_gt_of_ne hij with hlt | hlt
    · exact hdisjoint i j hi' hj' hlt ht ht'
    · exact hdisjoint j i hj' hi' hlt ht' ht

/-! ## A production that claims a terminal twice -/

/-- **First symbols that also follow.** If a nonterminal can vanish, and a terminal that can stand
first in it can also follow it, then two productions of some nonterminal claim a terminal. -/
theorem overlap_of_within (hg : g.WellFormed)
    (h : Within (g.Clause g.facts t .first) height A) (hA : g.facts.isNullable A = true)
    (hfollow : t ∈ g.facts.followOf A) :
    g.Overlap fun A body t => t ∈ g.facts.claimed A body := by
  -- Induction on the height at which the terminal was found to stand first. If the production that
  -- it comes from can vanish, so can the next symbol on the way to the terminal, which the terminal
  -- can follow as well. Otherwise it is another production that vanishes.
  induction height generalizing A with
  | zero => exact h.elim
  | succ height ih =>
    have hfirst := h
    obtain ⟨premises, ⟨_, body, hr, rfl, u, X, v, rfl, hu, hX⟩, hpremises⟩ := h
    by_cases hbody : g.facts.isNullableSeq (u ++ X :: v) = true
    · obtain ⟨hXnull, hv⟩ := Facts.isNullableSeq_cons.1 (Facts.isNullableSeq_append.1 hbody).2
      have hnonterminal := isTerminal_eq_false_of_isNullable hg hXnull
      have hXfollow : t ∈ g.facts.followOf X :=
        (mem_followOf_iff hg).2 ⟨A, u, v, hr, hnonterminal, Or.inr ⟨hv, hfollow⟩⟩
      rcases hX with ⟨hterminal, -⟩ | ⟨-, rfl⟩
      · exact absurd (hnonterminal.symm.trans hterminal) Bool.false_ne_true
      · exact ih (hpremises X List.mem_cons_self) hXnull hXfollow
    · obtain ⟨body', hr', hbody'⟩ := (isNullable_iff hg).1 hA
      have hX : t ∈ g.facts.firstOf X := by
        rcases hX with ⟨hterminal, rfl, -⟩ | ⟨-, rfl⟩
        · exact (mem_firstOf_terminal hg hterminal).2 rfl
        · exact mem_firstOf_of_within hg (hpremises X List.mem_cons_self)
      have hne : u ++ X :: v ≠ body' := fun heq => hbody (heq ▸ hbody')
      exact overlap_of_ne hr hr' hne
        (Facts.mem_claimed.2 (Or.inl (Facts.mem_firstSeq.2 ⟨u, X, v, rfl, hu, hX⟩)))
        (Facts.mem_claimed.2 (Or.inr ⟨hbody', hfollow⟩))

theorem exists_of_not_nodup_claimed {F : Facts} (h : ¬ (F.claimed A body).Nodup) :
    F.isNullableSeq body = true ∧ ∃ t ∈ F.firstSeq body, t ∈ F.followOf A := by
  rw [Facts.claimed] at h
  split at h
  · next hbody =>
    -- Both sets are without repetitions, so what is claimed twice is in both of them.
    refine ⟨hbody, by_contra fun hnone => h ?_⟩
    refine (F.firstSeq body).ascending.nodup.append (F.followOf A).ascending.nodup ?_
    exact fun t ht ht' => hnone ⟨t, ht, ht'⟩
  · rw [List.append_nil] at h
    exact absurd (F.firstSeq body).ascending.nodup h

theorem nodup_claimed_of_not_overlap (hg : g.WellFormed)
    (h : ¬ g.Overlap fun A body t => t ∈ g.facts.claimed A body) (hbody : body ∈ g.bodies A) :
    (g.facts.claimed A body).Nodup := by
  by_contra hdup
  obtain ⟨hnull, t, hfirst, hfollow⟩ := exists_of_not_nodup_claimed hdup
  have hr := mem_rules.2 hbody
  have hlt := hg.lt_of_mem_rules hr
  have hA := (isNullable_iff hg).2 ⟨body, hr, hnull⟩
  have ht := (mem_firstOf_iff hg hlt).2 ⟨body, hr, hfirst⟩
  exact h (overlap_of_within hg (within_of_mem_firstOf hg hlt ht) hA hfollow)

/-- **A table is made** iff no terminal is claimed by two productions of one nonterminal. -/
theorem exists_table_iff_not_overlap (hg : g.WellFormed) : (∃ T, g.table g.facts = .ok T) ↔
    ¬ g.Overlap fun A body t => t ∈ g.facts.claimed A body := by
  simp only [exists_table_iff, List.nodup_flatMap]
  refine ⟨fun h => not_overlap_iff.2 fun A => (h A).2, fun h A => ⟨fun body hbody => ?_, ?_⟩⟩
  · exact nodup_claimed_of_not_overlap hg h hbody
  · exact not_overlap_iff.1 h A

/-! ## Predictions -/

theorem mem_claimed_iff_predicts (hg : g.WellFormed) (hA : A < g.nonterminals.length) :
    t ∈ g.facts.claimed A body ↔ g.Predicts A body t := by
  rw [Facts.mem_claimed, mem_firstSeq_iff_begins hg, isNullableSeq_iff_derives hg,
    mem_followOf_iff_follows hg hA]
  rfl

theorem overlap_claimed_iff (hg : g.WellFormed) :
    (g.Overlap fun A body t => t ∈ g.facts.claimed A body) ↔ g.Overlap g.Predicts :=
  ⟨.mono fun _ _ _ hr => (mem_claimed_iff_predicts hg (hg.lt_of_mem_rules hr)).1,
    .mono fun _ _ _ hr => (mem_claimed_iff_predicts hg (hg.lt_of_mem_rules hr)).2⟩

end NumberedGrammar

/-! ## Grammars that compile -/

namespace Grammar

variable {g : Grammar} {n : NumberedGrammar}

theorem exists_compile_iff (hn : g.number? = some n) :
    (∃ p, g.compile = .ok p) ↔ ∃ T, n.table n.facts = .ok T := by
  rw [compile_of_number? hn]
  cases n.table n.facts with
  | ok T => exact iff_of_true ⟨_, rfl⟩ ⟨T, rfl⟩
  | error e => exact iff_of_false (fun ⟨_, h⟩ => nomatch h) fun ⟨_, h⟩ => nomatch h

theorem exists_ambiguous_iff (hn : g.number? = some n) :
    (∃ A t body, g.compile = .error (.ambiguous A t body)) ↔ ¬ ∃ p, g.compile = .ok p := by
  have hcompile := compile_of_number? hn
  cases hT : n.table n.facts with
  | ok T =>
    rw [hcompile, hT]
    exact iff_of_false (fun ⟨_, _, _, h⟩ => nomatch h) fun h => h ⟨_, rfl⟩
  | error e =>
    obtain ⟨c, -, rfl⟩ := NumberedGrammar.table_eq_error_iff.1 hT
    rw [hcompile, hT]
    exact iff_of_true ⟨_, _, _, rfl⟩ fun ⟨_, h⟩ => nomatch h

/-- **The grammars that are refused**, of those with rules, are exactly the ones in which a terminal
calls for two productions of one nonterminal; all others compile. So a production that claims a
terminal twice is never the only reason to refuse a grammar. The terminals that call for a production
are those that it claims in the table. -/
theorem compile_ambiguous_iff (h : g.rules ≠ []) : ∃ n, g.number? = some n ∧
    (∀ A < n.nonterminals.length, ∀ body t, t ∈ n.facts.claimed A body ↔ n.Predicts A body t) ∧
    ((∃ A t body, g.compile = .error (.ambiguous A t body)) ↔ n.Overlap n.Predicts) ∧
    ((∃ p, g.compile = .ok p) ↔ ¬ n.Overlap n.Predicts) := by
  obtain ⟨n, hn, hwf⟩ := exists_number? h
  have hok : (∃ p, g.compile = .ok p) ↔ ¬ n.Overlap n.Predicts := by
    rw [exists_compile_iff hn, NumberedGrammar.exists_table_iff_not_overlap hwf,
      NumberedGrammar.overlap_claimed_iff hwf]
  refine ⟨n, hn, fun A hA body t => NumberedGrammar.mem_claimed_iff_predicts hwf hA, ?_, hok⟩
  rw [exists_ambiguous_iff hn, hok, not_not]

/-- The error names the only production of `T`, which claims `0` twice; the overlap that there must
be is between the productions of `F`. -/
theorem compile_ambiguous_iff_doubleClaim : ∃ n, doubleClaim.number? = some n ∧
    doubleClaim.compile = .error (.ambiguous ['T'] ['0'] ['F']) ∧ n.Overlap n.Predicts := by
  obtain ⟨n, hn, -, hambiguous, -⟩ := compile_ambiguous_iff (g := doubleClaim) (by decide)
  have hcompile : doubleClaim.compile = .error (.ambiguous ['T'] ['0'] ['F']) := by decide +kernel
  exact ⟨n, hn, hcompile, hambiguous.1 ⟨_, _, _, hcompile⟩⟩

end Grammar

end PredictiveParsing
