import Mathlib
import PredictiveParsing.Facts.Basic
import PredictiveParsing.Proofs.Numbering

/-!
# What one production adds to the facts

Each analysis reads a production as some clauses: a fact about one nonterminal follows from facts
of the same kind about others, once the facts of the earlier analyses are fixed.

* `mem_firstSeq`: the forward scan over a sequence of symbols;
* `followersBefore`, **`followUpdates_eq`**, `mem_followUpdates`: the backward scan, place by place;
* `Facts.Has`, `Facts.ClauseOf`, `Facts.Fires`: one fact, and the clauses of a production;
* `fires_nullable`, `fires_first`, `fires_follow`: what the clauses of each analysis say;
* **`has_apply`**: applying an analysis to a production adds exactly the heads of its clauses whose
  premises hold;
* `Facts.Frame`: an analysis leaves the facts of the other analyses alone.
-/

namespace PredictiveParsing

namespace Facts

variable {F G : Facts} {g : NumberedGrammar} {A B X t n : ℕ} {body : List ℕ}

/-! ## Sequences of symbols -/

@[simp]
theorem isNullableSeq_nil : F.isNullableSeq [] = true := rfl

@[simp]
theorem isNullableSeq_cons :
    F.isNullableSeq (X :: body) = true ↔ F.isNullable X = true ∧ F.isNullableSeq body = true := by
  simp [isNullableSeq]

@[simp]
theorem isNullableSeq_append {u v : List ℕ} :
    F.isNullableSeq (u ++ v) = true ↔ F.isNullableSeq u = true ∧ F.isNullableSeq v = true := by
  simp only [isNullableSeq, List.all_append, Bool.and_eq_true]

theorem isNullableSeq_iff : F.isNullableSeq body = true ↔ ∀ X ∈ body, F.isNullable X = true :=
  List.all_eq_true

theorem mem_firstSeq_cons : t ∈ F.firstSeq (X :: body) ↔
    t ∈ F.firstOf X ∨ (F.isNullable X = true ∧ t ∈ F.firstSeq body) := by
  rw [firstSeq]
  split <;> simp_all

theorem mem_firstSeq_append {u v : List ℕ} : t ∈ F.firstSeq (u ++ v) ↔
    t ∈ F.firstSeq u ∨ (F.isNullableSeq u = true ∧ t ∈ F.firstSeq v) := by
  induction u with
  | nil => simp [firstSeq]
  | cons X u ih =>
    rw [List.cons_append, mem_firstSeq_cons, mem_firstSeq_cons, isNullableSeq_cons, ih, and_or_left,
      or_assoc, and_assoc]

theorem mem_firstSeq : t ∈ F.firstSeq body ↔
    ∃ u X v, body = u ++ X :: v ∧ F.isNullableSeq u = true ∧ t ∈ F.firstOf X := by
  induction body with
  | nil => simp [firstSeq]
  | cons Y body ih =>
    rw [mem_firstSeq_cons, ih]
    constructor
    · rintro (h | ⟨hY, u, X, v, rfl, hu, h⟩)
      · exact ⟨[], Y, body, rfl, rfl, h⟩
      · exact ⟨Y :: u, X, v, rfl, isNullableSeq_cons.2 ⟨hY, hu⟩, h⟩
    · rintro ⟨u, X, v, hb, hu, h⟩
      cases u with
      | nil => cases hb; exact Or.inl h
      | cons Z u =>
        cases hb
        have hu := isNullableSeq_cons.1 hu
        exact Or.inr ⟨hu.1, u, X, v, rfl, hu.2, h⟩

/-! ## The scan for followers -/

/-- What can follow a symbol of a production of `A`, from the symbols behind it: what can stand
first in them and, if all of them can vanish, what can follow `A`. -/
def followersBefore (F : Facts) (A : ℕ) (behind : List ℕ) : IndexSet :=
  if F.isNullableSeq behind then F.firstSeq behind ∪ F.followOf A else F.firstSeq behind

theorem mem_followersBefore : t ∈ F.followersBefore A body ↔
    t ∈ F.firstSeq body ∨ (F.isNullableSeq body = true ∧ t ∈ F.followOf A) := by
  rw [followersBefore]
  split
  · next h => simp [h]
  · next h => simp [h]

/-- **The set that the scan keeps** is what the symbols that it has passed say when they are read
forward. -/
theorem scan_eq_followersBefore (F : Facts) (g : NumberedGrammar) (A : ℕ) (body : List ℕ) :
    (body.foldr (F.followStep g) ([], F.followOf A)).2 = F.followersBefore A body := by
  ext t
  rw [mem_followersBefore]
  induction body with
  | nil => simp [firstSeq]
  | cons X body ih =>
    rw [List.foldr_cons, followStep, mem_firstSeq_cons, isNullableSeq_cons]
    by_cases hX : F.isNullable X = true
    · rw [if_pos hX, IndexSet.mem_union, ih]
      simp [hX, or_assoc]
    · rw [if_neg hX]
      simp [hX]

theorem followUpdates_cons : F.followUpdates g A (X :: body) = F.followUpdates g A body ++
    if g.isTerminal X then [] else [(X, F.followersBefore A body)] := by
  rw [followUpdates, List.foldr_cons, followStep, scan_eq_followersBefore, followUpdates]
  split
  · exact (List.append_nil _).symm
  · rfl

/-- **What the scan records**, whatever is known at the time: from right to left, one entry for each
place of the production at which a nonterminal stands. The entry is the nonterminal with what can
stand first in the symbols behind it, together with what can follow `A` if all of them can
vanish. -/
theorem followUpdates_eq (F : Facts) (g : NumberedGrammar) (A : ℕ) (body : List ℕ) :
    F.followUpdates g A body =
      ((List.finRange body.length).reverse.filter fun i => !g.isTerminal (body.get i)).map fun i =>
        (body.get i, F.followersBefore A (body.drop (i.val + 1))) := by
  induction body with
  | nil => rfl
  | cons X body ih =>
    have hplaces : List.finRange (X :: body).length =
        0 :: (List.finRange body.length).map Fin.succ := List.finRange_succ
    rw [followUpdates_cons, ih, hplaces, List.reverse_cons, ← List.map_reverse, List.filter_append,
      List.map_append, List.filter_map, List.map_map]
    congr 1
    cases hX : g.isTerminal X <;> simp [hX]

theorem exists_place_cons {P : List ℕ → Prop} : (∃ u v, X :: body = u ++ B :: v ∧ P v) ↔
    (X = B ∧ P body) ∨ ∃ u v, body = u ++ B :: v ∧ P v := by
  constructor
  · rintro ⟨u, v, hb, hP⟩
    cases u with
    | nil => cases hb; exact Or.inl ⟨rfl, hP⟩
    | cons Y u => cases hb; exact Or.inr ⟨u, v, rfl, hP⟩
  · rintro (⟨rfl, hP⟩ | ⟨u, v, rfl, hP⟩)
    · exact ⟨[], body, rfl, hP⟩
    · exact ⟨X :: u, v, rfl, hP⟩

/-- **The scan adds to each nonterminal of a production** what stands first after it, and what
follows the left side if all after it vanishes. -/
theorem mem_followUpdates : (∃ s, (B, s) ∈ F.followUpdates g A body ∧ t ∈ s) ↔
    ∃ u v, body = u ++ B :: v ∧ g.isTerminal B = false ∧
      (t ∈ F.firstSeq v ∨ (F.isNullableSeq v = true ∧ t ∈ F.followOf A)) := by
  induction body with
  | nil => simp [followUpdates]
  | cons X body ih =>
    rw [exists_place_cons, ← ih, ← mem_followersBefore, followUpdates_cons]
    simp only [List.mem_append, or_and_right, exists_or]
    rw [or_comm]
    refine or_congr_left ?_
    cases hX : g.isTerminal X with
    | true =>
      refine iff_of_false (by simp) ?_
      rintro ⟨rfl, hB, -⟩
      exact Bool.false_ne_true (hB.symm.trans hX)
    | false =>
      simp only [Bool.false_eq_true, if_false, List.mem_singleton, Prod.mk.injEq]
      constructor
      · rintro ⟨s, ⟨rfl, rfl⟩, ht⟩
        exact ⟨rfl, hX, ht⟩
      · rintro ⟨rfl, -, ht⟩
        exact ⟨_, ⟨rfl, rfl⟩, ht⟩

/-! ## Places for facts -/

/-- The facts have a place for each of `n` nonterminals. -/
structure Sized (F : Facts) (n : ℕ) : Prop where
  nullable : F.nullable.length = n
  first : F.first.length = n
  follow : F.follow.length = n

theorem sized_blank (n : ℕ) : (blank n).Sized n := by
  constructor <;> simp [blank]

theorem Sized.addFollow (h : F.Sized n) (update : ℕ × IndexSet) :
    (F.addFollow update).Sized n :=
  ⟨h.nullable, h.first, (List.length_modify ..).trans h.follow⟩

theorem Sized.foldl_addFollow (h : F.Sized n) (updates : List (ℕ × IndexSet)) :
    (updates.foldl Facts.addFollow F).Sized n := by
  induction updates generalizing F with
  | nil => exact h
  | cons update updates ih => exact ih (h.addFollow update)

theorem Sized.apply (h : F.Sized n) (g : NumberedGrammar) (A : ℕ) (body : List ℕ) (a : Analysis) :
    (a.apply g F A body).Sized n := by
  cases a with
  | nullable => exact ⟨(List.length_modify ..).trans h.nullable, h.first, h.follow⟩
  | first => exact ⟨h.nullable, (List.length_modify ..).trans h.first, h.follow⟩
  | follow => exact h.foldl_addFollow _

theorem mem_followOf_addFollow (h : F.Sized n) (update : ℕ × IndexSet) :
    t ∈ (F.addFollow update).followOf B ↔
      t ∈ F.followOf B ∨ (B = update.1 ∧ B < n ∧ t ∈ update.2) := by
  simp only [addFollow, followOf, List.getD_eq_getElem?_getD, List.getElem?_modify]
  by_cases hB : B < n
  · rw [List.getElem?_eq_getElem (h.follow ▸ hB)]
    by_cases hu : update.1 = B
    · simp [hu, hB, or_comm]
    · simp [hu, Ne.symm hu]
  · rw [List.getElem?_eq_none (by rw [h.follow]; omega)]
    simp [hB]

theorem mem_followOf_foldl_addFollow (h : F.Sized n) (updates : List (ℕ × IndexSet)) :
    t ∈ (updates.foldl Facts.addFollow F).followOf B ↔
      t ∈ F.followOf B ∨ (B < n ∧ ∃ s, (B, s) ∈ updates ∧ t ∈ s) := by
  induction updates generalizing F with
  | nil => simp
  | cons update updates ih =>
    rw [List.foldl_cons, ih (h.addFollow update), mem_followOf_addFollow h]
    constructor
    · rintro ((ht | ⟨rfl, hB, ht⟩) | ⟨hB, s, hs, ht⟩)
      · exact Or.inl ht
      · exact Or.inr ⟨hB, update.2, List.mem_cons_self, ht⟩
      · exact Or.inr ⟨hB, s, List.mem_cons_of_mem _ hs, ht⟩
    · rintro (ht | ⟨hB, s, hs, ht⟩)
      · exact Or.inl (Or.inl ht)
      · rcases List.mem_cons.1 hs with rfl | hs
        · exact Or.inl (Or.inr ⟨rfl, hB, ht⟩)
        · exact Or.inr ⟨hB, s, hs, ht⟩

/-! ## Facts and clauses -/

/-- What an analysis can find out about a nonterminal: that it vanishes, that `t` can stand first
in it, or that `t` can follow it. -/
def Has (F : Facts) (t : ℕ) : Analysis → ℕ → Prop
  | .nullable, A => F.isNullable A = true
  | .first, A => A < F.first.length ∧ t ∈ F.firstOf A
  | .follow, A => t ∈ F.followOf A

/-- The clauses that an analysis reads from a production of `A`. -/
def ClauseOf (F : Facts) (g : NumberedGrammar) (t A : ℕ) (body : List ℕ) :
    Analysis → ℕ → List ℕ → Prop
  | .nullable, B, premises => B = A ∧ premises = body
  | .first, B, premises => B = A ∧ ∃ u X v, body = u ++ X :: v ∧ F.isNullableSeq u = true ∧
      ((g.isTerminal X = true ∧ X = t ∧ premises = []) ∨
        (g.isTerminal X = false ∧ premises = [X]))
  | .follow, B, premises => ∃ u v, body = u ++ B :: v ∧ g.isTerminal B = false ∧
      ((t ∈ F.firstSeq v ∧ premises = []) ∨ (F.isNullableSeq v = true ∧ premises = [A]))

/-- A clause with the head `B` has premises that hold. -/
def Fires (F : Facts) (g : NumberedGrammar) (t A : ℕ) (body : List ℕ) (a : Analysis)
    (B : ℕ) : Prop :=
  ∃ premises, F.ClauseOf g t A body a B premises ∧ ∀ X ∈ premises, F.Has t a X

theorem fires_nullable :
    F.Fires g t A body .nullable B ↔ B = A ∧ F.isNullableSeq body = true := by
  simp only [Fires, ClauseOf, Has, isNullableSeq_iff]
  constructor
  · rintro ⟨_, ⟨rfl, rfl⟩, h⟩
    exact ⟨rfl, h⟩
  · rintro ⟨rfl, h⟩
    exact ⟨body, ⟨rfl, rfl⟩, h⟩

theorem mem_firstOf_terminal (hF : F.Sized n) (hX : n ≤ X) : t ∈ F.firstOf X ↔ t = X := by
  rw [firstOf, List.getD_eq_default _ _ (by rw [hF.first]; exact hX), IndexSet.mem_singleton]

theorem fires_first (hF : F.Sized g.nonterminals.length) :
    F.Fires g t A body .first B ↔ B = A ∧ t ∈ F.firstSeq body := by
  rw [mem_firstSeq]
  constructor
  · rintro ⟨premises, ⟨rfl, u, X, v, hb, hu, ⟨hX, rfl, rfl⟩ | ⟨hX, rfl⟩⟩, hp⟩
    · exact ⟨rfl, u, X, v, hb, hu,
        (mem_firstOf_terminal hF (NumberedGrammar.isTerminal_iff.1 hX)).2 rfl⟩
    · exact ⟨rfl, u, X, v, hb, hu, (hp X List.mem_cons_self).2⟩
  · rintro ⟨rfl, u, X, v, hb, hu, ht⟩
    by_cases hX : g.isTerminal X = true
    · have htX := (mem_firstOf_terminal hF (NumberedGrammar.isTerminal_iff.1 hX)).1 ht
      exact ⟨[], ⟨rfl, u, X, v, hb, hu, Or.inl ⟨hX, htX.symm, rfl⟩⟩, by simp⟩
    · rw [Bool.not_eq_true] at hX
      refine ⟨[X], ⟨rfl, u, X, v, hb, hu, Or.inr ⟨hX, rfl⟩⟩, fun Y hY => ?_⟩
      rw [List.mem_singleton.1 hY]
      exact ⟨hF.first ▸ NumberedGrammar.not_isTerminal_iff.1 hX, ht⟩

theorem fires_follow : F.Fires g t A body .follow B ↔
    ∃ u v, body = u ++ B :: v ∧ g.isTerminal B = false ∧
      (t ∈ F.firstSeq v ∨ (F.isNullableSeq v = true ∧ t ∈ F.followOf A)) := by
  constructor
  · rintro ⟨premises, ⟨u, v, hb, hB, ⟨ht, rfl⟩ | ⟨hv, rfl⟩⟩, hp⟩
    · exact ⟨u, v, hb, hB, Or.inl ht⟩
    · exact ⟨u, v, hb, hB, Or.inr ⟨hv, hp A List.mem_cons_self⟩⟩
  · rintro ⟨u, v, hb, hB, ht | ⟨hv, ht⟩⟩
    · exact ⟨[], ⟨u, v, hb, hB, Or.inl ⟨ht, rfl⟩⟩, by simp⟩
    · refine ⟨[A], ⟨u, v, hb, hB, Or.inr ⟨hv, rfl⟩⟩, fun X hX => ?_⟩
      rw [List.mem_singleton.1 hX]
      exact ht

variable {a : Analysis}

/-- **Applying an analysis to a production** adds exactly the heads of its clauses whose premises
hold. -/
theorem has_apply (hF : F.Sized g.nonterminals.length) (hA : A < g.nonterminals.length) :
    (a.apply g F A body).Has t a B ↔ F.Has t a B ∨ F.Fires g t A body a B := by
  cases a with
  | nullable =>
    rw [fires_nullable]
    simp only [Has, Analysis.apply, isNullable, List.getD_eq_getElem?_getD, List.getElem?_modify]
    by_cases h : A = B
    · subst h
      rw [List.getElem?_eq_getElem (hF.nullable ▸ hA)]
      simp
    · simp [h, Ne.symm h]
  | first =>
    rw [fires_first hF]
    simp only [Has, Analysis.apply, firstOf, List.getD_eq_getElem?_getD, List.getElem?_modify,
      List.length_modify]
    by_cases h : A = B
    · subst h
      rw [List.getElem?_eq_getElem (hF.first ▸ hA)]
      simp [hF.first, hA, or_comm]
    · simp [h, Ne.symm h]
  | follow =>
    rw [fires_follow]
    simp only [Has, Analysis.apply]
    rw [mem_followOf_foldl_addFollow hF, mem_followUpdates]
    refine or_congr_right ⟨And.right, fun h => ⟨?_, h⟩⟩
    obtain ⟨_, _, _, hB, _⟩ := h
    exact NumberedGrammar.not_isTerminal_iff.1 hB

/-! ## What an analysis leaves alone -/

/-- The facts of all analyses but `a` are the same. -/
structure Frame (a : Analysis) (F G : Facts) : Prop where
  nullable : a ≠ .nullable → F.nullable = G.nullable
  first : a ≠ .first → F.first = G.first
  follow : a ≠ .follow → F.follow = G.follow

theorem Frame.refl (a : Analysis) (F : Facts) : Frame a F F :=
  ⟨fun _ => rfl, fun _ => rfl, fun _ => rfl⟩

theorem Frame.trans {H : Facts} (h : Frame a F G) (h' : Frame a G H) : Frame a F H :=
  ⟨fun ha => (h.nullable ha).trans (h'.nullable ha), fun ha => (h.first ha).trans (h'.first ha),
    fun ha => (h.follow ha).trans (h'.follow ha)⟩

theorem foldl_addFollow_frame (updates : List (ℕ × IndexSet)) :
    Frame .follow (updates.foldl Facts.addFollow F) F := by
  induction updates generalizing F with
  | nil => exact .refl _ _
  | cons update updates ih =>
    have hstep : Frame .follow (F.addFollow update) F :=
      ⟨fun _ => rfl, fun _ => rfl, fun h => absurd rfl h⟩
    exact ih.trans hstep

theorem frame_apply (g : NumberedGrammar) (F : Facts) (A : ℕ) (body : List ℕ) (a : Analysis) :
    Frame a (a.apply g F A body) F := by
  cases a with
  | nullable => exact ⟨fun h => absurd rfl h, fun _ => rfl, fun _ => rfl⟩
  | first => exact ⟨fun _ => rfl, fun h => absurd rfl h, fun _ => rfl⟩
  | follow => exact foldl_addFollow_frame _

theorem isNullableSeq_congr (h : F.nullable = G.nullable) (body : List ℕ) :
    F.isNullableSeq body = G.isNullableSeq body := by
  have hi : F.isNullable = G.isNullable := by
    funext X
    rw [isNullable, isNullable, h]
  rw [isNullableSeq, isNullableSeq, hi]

theorem mem_firstSeq_congr (hn : F.nullable = G.nullable) (hf : F.first = G.first) :
    t ∈ F.firstSeq body ↔ t ∈ G.firstSeq body := by
  have hi : ∀ X, F.firstOf X = G.firstOf X := fun X => by rw [firstOf, firstOf, hf]
  simp only [mem_firstSeq, isNullableSeq_congr hn, hi]

theorem clauseOf_congr (hn : a ≠ .nullable → F.nullable = G.nullable)
    (hf : a = .follow → F.first = G.first) {premises : List ℕ} :
    F.ClauseOf g t A body a B premises ↔ G.ClauseOf g t A body a B premises := by
  cases a with
  | nullable => exact Iff.rfl
  | first => simp only [ClauseOf, isNullableSeq_congr (hn (by decide))]
  | follow =>
    simp only [ClauseOf, isNullableSeq_congr (hn (by decide)),
      mem_firstSeq_congr (hn (by decide)) (hf rfl)]

theorem Frame.clauseOf_iff (h : Frame a F G) {premises : List ℕ} :
    F.ClauseOf g t A body a B premises ↔ G.ClauseOf g t A body a B premises :=
  clauseOf_congr h.nullable fun ha => h.first (by rw [ha]; decide)

theorem Frame.has_iff {a' : Analysis} (h : Frame a F G) (ha : a ≠ a') :
    F.Has t a' B ↔ G.Has t a' B := by
  cases a' with
  | nullable => rw [Has, Has, isNullable, isNullable, h.nullable ha]
  | first => rw [Has, Has, firstOf, firstOf, h.first ha]
  | follow => rw [Has, Has, followOf, followOf, h.follow ha]

theorem not_has_blank : ¬ (blank n).Has t a B := by
  cases a with
  | nullable =>
    simp only [Has, isNullable, blank, List.getD_eq_getElem?_getD, List.getElem?_replicate]
    split <;> simp
  | first =>
    simp only [Has, firstOf, blank, List.getD_eq_getElem?_getD, List.getElem?_replicate,
      List.length_replicate]
    rintro ⟨hB, h⟩
    rw [if_pos hB] at h
    exact IndexSet.notMem_empty h
  | follow =>
    simp only [Has, followOf, blank, List.getD_eq_getElem?_getD, List.getElem?_replicate]
    split <;> simp

theorem Frame.eq_of_has (h : Frame a F G) (hF : F.Sized n) (hG : G.Sized n)
    (hiff : ∀ t B, F.Has t a B ↔ G.Has t a B) : F = G := by
  have heq : a = .nullable → F.nullable = G.nullable := by
    rintro rfl
    refine List.ext_getElem (hF.nullable.trans hG.nullable.symm) fun i hi hi' => ?_
    have hb := hiff 0 i
    simp only [Has, isNullable, List.getD_eq_getElem _ _ hi, List.getD_eq_getElem _ _ hi'] at hb
    exact Bool.eq_iff_iff.2 hb
  have heq' : a = .first → F.first = G.first := by
    rintro rfl
    refine List.ext_getElem (hF.first.trans hG.first.symm) fun i hi hi' => IndexSet.ext fun t => ?_
    have hb := hiff t i
    simpa only [Has, firstOf, List.getD_eq_getElem _ _ hi, List.getD_eq_getElem _ _ hi', hi, hi',
      true_and] using hb
  have heq'' : a = .follow → F.follow = G.follow := by
    rintro rfl
    refine List.ext_getElem (hF.follow.trans hG.follow.symm) fun i hi hi' => ?_
    refine IndexSet.ext fun t => ?_
    have hb := hiff t i
    simpa only [Has, followOf, List.getD_eq_getElem _ _ hi, List.getD_eq_getElem _ _ hi'] using hb
  obtain ⟨_, _, _⟩ := F
  obtain ⟨_, _, _⟩ := G
  cases a with
  | nullable => rw [Facts.mk.injEq]; exact ⟨heq rfl, h.first (by decide), h.follow (by decide)⟩
  | first => rw [Facts.mk.injEq]; exact ⟨h.nullable (by decide), heq' rfl, h.follow (by decide)⟩
  | follow => rw [Facts.mk.injEq]; exact ⟨h.nullable (by decide), h.first (by decide), heq'' rfl⟩

end Facts

end PredictiveParsing
