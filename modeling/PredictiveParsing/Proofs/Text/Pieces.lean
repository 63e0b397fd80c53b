import Mathlib
import PredictiveParsing.Text.Basic

/-!
# Cutting and joining

A text that is joined by a separator is cut into the pieces again, unless a separator begins inside
of a piece. If the first character of a separator does not occur again in it, this means that no
piece contains the separator; then the pieces of a text are the one list of texts without the
separator that the text is joined from.

* `Unbroken`: no separator begins inside of a text; `unbroken_of_head_notMem`, `unbroken_of_notMem`;
* `splitOn_append_of_unbroken`: the first piece; `splitOn_of_not_infix`: the only piece;
* **`splitOn_intercalate`**: the pieces of a joined text;
* `not_infix_of_mem_splitFrom`, **`splitOn_eq_iff`**: the pieces of a text;
* `not_infix_append_cons`: a text without separators; `intercalate_map_intercalate`: joining groups;
* `Text.IsCut`, **`isCut_iff`**: the lines of a text; `lines_intercalate`: the text of some lines;
* `trim_append`, `removeBlanks_eq_self`: white space that is dropped.
-/

namespace PredictiveParsing.Text

variable {s : Char} {separator tail piece t u v : Text} {pieces : List Text}

/-! ## Cutting at a separator -/

theorem splitFrom_length_append (separator u t : Text) :
    splitFrom separator u.length (u ++ t) = splitFrom separator 0 t := by
  induction u with
  | nil => rfl
  | cons c u ih =>
    rw [List.cons_append, List.length_cons, splitFrom]
    exact ih

/-- No separator begins in the text, whatever stands behind a separator that follows it. -/
def Unbroken (separator u : Text) : Prop :=
  ∀ w, w ≠ [] → w <:+ u → ∀ t, ¬ separator <+: w ++ (separator ++ t)

theorem Unbroken.of_suffix (h : Unbroken separator u) (hv : v <:+ u) : Unbroken separator v :=
  fun w hw hwv => h w hw (hwv.trans hv)

theorem unbroken_of_head_notMem (hs : s ∉ tail) (h : ¬ (s :: tail) <:+: u) :
    Unbroken (s :: tail) u := by
  intro w hw hsuffix t hpre
  have hnot : ¬ (s :: tail) <:+: w := fun hin => h (hin.trans hsuffix.isInfix)
  rcases List.prefix_or_prefix_of_prefix hpre (List.prefix_append w _) with hin | ⟨x, hx⟩
  · exact hnot hin.isInfix
  · -- The two occurrences overlap: the second one begins inside of the first one.
    rw [← hx, List.prefix_append_right_inj] at hpre
    obtain ⟨c, w, rfl⟩ := List.exists_cons_of_ne_nil hw
    obtain ⟨rfl, rfl⟩ := List.cons.inj hx
    cases x with
    | nil => exact hnot (by simp)
    | cons d x =>
      obtain ⟨_, hpre⟩ := hpre
      obtain rfl := (List.cons.inj hpre).1
      simp at hs

theorem unbroken_of_notMem {before after : Text} {m : Char} (hm : m ∉ before)
    (h : ¬ (before ++ [m]) <:+: u) : Unbroken (before ++ m :: after) u := by
  intro w hw hsuffix t hpre
  rcases Nat.lt_or_ge before.length w.length with hlt | hle
  · have hshort : before ++ [m] <+: before ++ m :: after := ⟨after, by simp⟩
    have hin : before ++ [m] <+: w := List.prefix_of_prefix_length_le (hshort.trans hpre)
      (List.prefix_append _ _) (by simpa using hlt)
    exact h (hin.isInfix.trans hsuffix.isInfix)
  · -- The new character would be one of the part.
    obtain ⟨rest, hrest⟩ := hpre
    have hat : (w ++ (before ++ m :: after ++ t))[before.length]? = some m := by
      rw [← hrest]
      simp
    have hpos := List.length_pos_iff.2 hw
    have hlt : before.length - w.length < before.length := by omega
    rw [List.getElem?_append_right hle, List.append_assoc, List.getElem?_append_left hlt] at hat
    exact hm (List.mem_of_getElem? hat)

theorem Unbroken.not_infix (hs : separator ≠ []) (h : Unbroken separator u) :
    ¬ separator <:+: u := by
  rintro ⟨x, y, rfl⟩
  rw [List.append_assoc] at h
  exact h (separator ++ y) (by simp [hs]) (List.suffix_append x _) []
    ((List.prefix_append _ y).trans (List.prefix_append _ _))

/-- **The first piece** of a text: the separator behind it is the first one. -/
theorem splitOn_append_of_unbroken (hs : separator ≠ []) (h : Unbroken separator u) (t : Text) :
    splitOn separator (u ++ (separator ++ t)) = u :: splitOn separator t := by
  unfold splitOn
  induction u with
  | nil =>
    obtain ⟨s, tail, rfl⟩ := List.exists_cons_of_ne_nil hs
    rw [List.nil_append, List.cons_append, splitFrom,
      if_pos (List.isPrefixOf_iff_prefix.2 (by simp))]
    simp [splitFrom_length_append]
  | cons c u ih =>
    have hpre := h (c :: u) (List.cons_ne_nil c u) (List.suffix_refl _) t
    rw [List.cons_append] at hpre
    rw [List.cons_append, splitFrom, if_neg (by rwa [List.isPrefixOf_iff_prefix]),
      ih (h.of_suffix (List.suffix_cons c u)), consPiece]

theorem splitOn_append (hs : s ∉ tail) (h : ¬ (s :: tail) <:+: u) (t : Text) :
    splitOn (s :: tail) (u ++ (s :: tail ++ t)) = u :: splitOn (s :: tail) t :=
  splitOn_append_of_unbroken (List.cons_ne_nil _ _) (unbroken_of_head_notMem hs h) t

theorem splitOn_of_not_infix (h : ¬ separator <:+: t) : splitOn separator t = [t] := by
  unfold splitOn
  induction t with
  | nil => rfl
  | cons c t ih =>
    rw [List.infix_cons_iff, not_or] at h
    rw [splitFrom, if_neg (by rw [List.isPrefixOf_iff_prefix]; exact h.1), ih h.2, consPiece]

theorem not_infix_of_mem_splitFrom (hs : separator ≠ []) {skip : ℕ}
    (h : piece ∈ splitFrom separator skip t) : ¬ separator <:+: piece := by
  fun_induction splitFrom separator skip t generalizing piece with
  | case1 => simpa [List.mem_singleton.1 h] using hs
  | case2 _ _ _ ih => exact ih h
  | case3 c t _ ih =>
    rcases List.mem_cons.1 h with rfl | h
    · simpa using hs
    · exact ih h
  | case4 c t hpre ih =>
    rw [List.isPrefixOf_iff_prefix] at hpre
    have hjoin := intercalate_splitFrom hs t 0
    obtain ⟨first, rest, hsplit⟩ := List.exists_cons_of_ne_nil (splitFrom_ne_nil separator t 0)
    rw [hsplit] at h hjoin ih
    rcases List.mem_cons.1 h with rfl | h
    · rw [List.infix_cons_iff, not_or]
      refine ⟨fun hin => hpre (hin.trans ?_), ih List.mem_cons_self⟩
      -- The first piece is a beginning of the text.
      rw [List.drop_zero] at hjoin
      rw [List.cons_prefix_cons, ← hjoin]
      refine ⟨rfl, ?_⟩
      cases rest with
      | nil => simp
      | cons => simp [List.intercalate_cons_cons, List.append_assoc]
    · exact ih (List.mem_cons_of_mem _ h)

/-- **The pieces of a joined text**, if no separator begins in any of them. -/
theorem splitOn_intercalate (hs : separator ≠ []) (hne : pieces ≠ [])
    (h : ∀ piece ∈ pieces, Unbroken separator piece) :
    splitOn separator (separator.intercalate pieces) = pieces := by
  induction pieces with
  | nil => exact absurd rfl hne
  | cons piece pieces ih =>
    have hpiece := h piece List.mem_cons_self
    cases pieces with
    | nil => rw [List.intercalate_singleton, splitOn_of_not_infix (hpiece.not_infix hs)]
    | cons next pieces =>
      rw [List.intercalate_cons_cons, List.append_assoc, splitOn_append_of_unbroken hs hpiece,
        ih (List.cons_ne_nil _ _) fun piece hmem => h piece (List.mem_cons_of_mem _ hmem)]

/-- **The pieces of a text** are the texts without the separator that it is joined from. -/
theorem splitOn_eq_iff (hs : s ∉ tail) : splitOn (s :: tail) t = pieces ↔
    pieces ≠ [] ∧ (∀ piece ∈ pieces, ¬ (s :: tail) <:+: piece) ∧
      (s :: tail).intercalate pieces = t := by
  constructor
  · rintro rfl
    exact ⟨splitFrom_ne_nil _ _ _, fun _ h => not_infix_of_mem_splitFrom (List.cons_ne_nil _ _) h,
      intercalate_splitOn (List.cons_ne_nil _ _) t⟩
  · rintro ⟨hne, h, rfl⟩
    exact splitOn_intercalate (List.cons_ne_nil _ _) hne fun piece hmem =>
      unbroken_of_head_notMem hs (h piece hmem)

theorem eq_nil_of_prefix_cons {c : Char} (hc : c ∉ u) (h : u <+: c :: v) : u = [] := by
  cases u with
  | nil => rfl
  | cons d u =>
    obtain rfl := (List.cons_prefix_cons.1 h).1
    simp at hc

theorem not_infix_append_cons {c : Char} (hc : c ∉ separator) (hu : ¬ separator <:+: u)
    (hv : ¬ separator <:+: v) : ¬ separator <:+: u ++ c :: v := by
  rw [List.infix_append_iff, List.infix_cons_iff]
  rintro (hin | (hpre | hin) | ⟨w, x, rfl, hsuffix, hpre⟩)
  · exact hu hin
  · obtain rfl := eq_nil_of_prefix_cons hc hpre
    exact hu List.nil_infix
  · exact hv hin
  · obtain rfl := eq_nil_of_prefix_cons (fun hx => hc (by simp [hx])) hpre
    rw [List.append_nil] at hu
    exact hu hsuffix.isInfix

/-! ## Joining -/

theorem intercalate_append {qs : List Text} (hp : pieces ≠ []) (hq : qs ≠ []) :
    separator.intercalate (pieces ++ qs) =
      separator.intercalate pieces ++ separator ++ separator.intercalate qs := by
  induction pieces with
  | nil => exact absurd rfl hp
  | cons piece pieces ih =>
    cases pieces with
    | nil => simp [List.intercalate_cons_of_ne_nil hq]
    | cons next pieces =>
      rw [List.cons_append, List.intercalate_cons_of_ne_nil (by simp), ih (List.cons_ne_nil _ _),
        List.intercalate_cons_cons]
      simp only [List.append_assoc]

theorem intercalate_map_intercalate (separator : Text) {groups : List (List Text)}
    (h : [] ∉ groups) :
    separator.intercalate (groups.map separator.intercalate) =
      separator.intercalate groups.flatten := by
  induction groups with
  | nil => rfl
  | cons group groups ih =>
    rw [List.mem_cons, not_or] at h
    cases groups with
    | nil => simp
    | cons next groups =>
      have hnext : next ≠ [] := fun heq => h.2 (by simp [heq])
      rw [List.map_cons, List.intercalate_cons_of_ne_nil (by simp), ih h.2,
        ← intercalate_append (Ne.symm h.1) (by simp [hnext])]
      rfl

/-! ## Lines -/

/-- The text is cut into lines as it should be. A newline ends a line, together with one carriage
return before it, and behind the last newline there is one more line unless nothing is left. -/
inductive IsCut : Text → List Text → Prop where
  | nil : IsCut [] []
  | last {line : Text} (h : '\n' ∉ line) (hne : line ≠ []) : IsCut line [line]
  | newline {line t : Text} {ls : List Text} (h : '\n' ∉ line) (hreturn : line.getLast? ≠ some '\r')
      (rest : IsCut t ls) : IsCut (line ++ '\n' :: t) (line :: ls)
  | returnNewline {line t : Text} {ls : List Text} (h : '\n' ∉ line) (rest : IsCut t ls) :
      IsCut (line ++ '\r' :: '\n' :: t) (line :: ls)

theorem lines_of_notMem (h : '\n' ∉ t) (hne : t ≠ []) : lines t = [t] := by
  have hsplit : splitOn ['\n'] t = [t] :=
    splitOn_of_not_infix (by rwa [List.singleton_infix_iff])
  simp [lines, hsplit, hne]

theorem lines_append (h : '\n' ∉ u) (t : Text) :
    lines (u ++ '\n' :: t) = dropReturn u :: lines t := by
  have hsplit : splitOn ['\n'] (u ++ '\n' :: t) = u :: splitOn ['\n'] t :=
    splitOn_append List.not_mem_nil (by rwa [List.singleton_infix_iff]) t
  obtain ⟨piece, pieces, hpieces⟩ := List.exists_cons_of_ne_nil (splitFrom_ne_nil ['\n'] t 0)
  rw [← splitOn] at hpieces
  simp [lines, hsplit, hpieces]

theorem lines_of_isCut {ls : List Text} (h : IsCut t ls) : lines t = ls := by
  induction h with
  | nil => rfl
  | last h hne => exact lines_of_notMem h hne
  | newline h hreturn _ ih => rw [lines_append h, ih, dropReturn, if_neg hreturn]
  | @returnNewline line t ls h _ ih =>
    have happend := lines_append (u := line ++ ['\r']) (by simpa using h) t
    rw [dropReturn, if_pos (by simp), List.dropLast_concat, ih] at happend
    simpa using happend

theorem isCut_lines (t : Text) : IsCut t (lines t) := by
  induction hn : t.length using Nat.strong_induction_on generalizing t with
  | _ n ih =>
    by_cases hmem : '\n' ∈ t
    · obtain ⟨u, rest, rfl, hu⟩ := List.eq_append_cons_of_mem hmem
      have hrest : IsCut rest (lines rest) := ih _ (by simp at hn; omega) rest rfl
      rw [lines_append hu, dropReturn]
      split_ifs with hlast
      · obtain ⟨u, rfl⟩ := List.getLast?_eq_some_iff.1 hlast
        simp only [List.mem_append, not_or] at hu
        simpa using IsCut.returnNewline hu.1 hrest
      · exact .newline hu hlast hrest
    · by_cases hne : t = []
      · subst hne
        exact .nil
      · rw [lines_of_notMem hmem hne]
        exact .last hmem hne

/-- **The lines of a text** are the one way to cut it. -/
theorem isCut_iff {ls : List Text} : IsCut t ls ↔ lines t = ls :=
  ⟨lines_of_isCut, fun h => h ▸ isCut_lines t⟩

theorem lines_intercalate {ls : List Text} (h : ∀ line ∈ ls, '\n' ∉ line)
    (hreturn : ∀ line ∈ ls, line.getLast? ≠ some '\r') (hne : ∀ line ∈ ls, line ≠ []) :
    lines (['\n'].intercalate ls) = ls := by
  induction ls with
  | nil => rfl
  | cons line ls ih =>
    simp only [List.forall_mem_cons] at h hreturn hne
    cases ls with
    | nil => rw [List.intercalate_singleton, lines_of_notMem h.1 hne.1]
    | cons next ls =>
      rw [List.intercalate_cons_cons, List.append_assoc, List.singleton_append, lines_append h.1,
        ih h.2 hreturn.2 hne.2, dropReturn, if_neg hreturn.1]

/-! ## White space -/

theorem dropWhile_append_of_all {p : Char → Bool} (hu : ∀ c ∈ u, p c = true)
    (ht : ∀ c ∈ t.head?, p c = false) : (u ++ t).dropWhile p = t := by
  rw [List.dropWhile_append, List.dropWhile_eq_nil_iff.2 hu]
  cases t with
  | nil => rfl
  | cons c t => simp [ht c rfl]

theorem trim_append (hu : ∀ c ∈ u, isBlank c = true) (hv : ∀ c ∈ v, isBlank c = true)
    (hhead : ∀ c ∈ t.head?, isBlank c = false) (hlast : ∀ c ∈ t.getLast?, isBlank c = false)
    (hne : t ≠ []) : trim (u ++ (t ++ v)) = t := by
  have hfront : (u ++ (t ++ v)).dropWhile isBlank = t ++ v := by
    refine dropWhile_append_of_all hu fun c hc => hhead c ?_
    rwa [List.head?_append_of_ne_nil _ hne] at hc
  rw [trim, hfront, List.reverse_append, dropWhile_append_of_all, List.reverse_reverse]
  · simpa using hv
  · simpa using hlast

theorem removeBlanks_eq_self (h : ∀ c ∈ t, isBlank c = false) : removeBlanks t = t := by
  rw [removeBlanks, List.filter_eq_self]
  intro c hc
  rw [h c hc]
  rfl

end PredictiveParsing.Text
