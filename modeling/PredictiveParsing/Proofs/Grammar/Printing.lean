import Mathlib
import PredictiveParsing.Report.Productions
import PredictiveParsing.Proofs.Forest.Growth
import PredictiveParsing.Proofs.Grammar.Grouping
import PredictiveParsing.Proofs.Grammar.Reader
import PredictiveParsing.Proofs.Numbering

/-!
# Printed productions are read back

The printed productions of a grammar make a grammar text. It is read as the same grammar with the
rules of each left side brought together, as long as no symbol can be taken for white space, for a
bar or for an arrow.

* `Readable`: a text that is read back as one alternative; `joined`: alternatives on one line;
* `firstLine`, `barLine`, `RuleGroup.lines`: the lines that a left side is printed in;
  **`foldlM_lines`**: reading them;
* `Rule.Printable`: the rules that are read back; `ruleGroups_number`: the groups of a grammar;
* **`read_printed`**: reading what is printed.
-/

namespace PredictiveParsing

open Forest (shown)

/-! ## Alternatives on a line -/

/-- A text that is read back as one alternative: there is something in it, and nothing that is
white space, a bar or an arrow. -/
structure Readable (t : Text) : Prop where
  ne_nil : t ≠ []
  not_blank : ∀ c ∈ t, isBlank c = false
  bar : '|' ∉ t
  arrow : ¬ arrow <:+: t

/-- What is printed behind an arrow: a space, and alternatives with bars between them. -/
def joined (texts : List Text) : Text := ' ' :: " | ".toList.intercalate texts

/-- The line ends here, with no white space before its end. -/
def Ends (line : Text) : Prop := '\n' ∉ line ∧ ∃ c ∈ line.getLast?, isBlank c = false

variable {t u v right : Text} {texts : List Text} {A : Nonterminal} {width : ℕ} {multiline : Bool}

theorem joined_singleton (t : Text) : joined [t] = ' ' :: t := by
  rw [joined, List.intercalate_singleton]

theorem joined_cons_cons (t u : Text) (texts : List Text) :
    joined (t :: u :: texts) = (' ' :: t ++ [' ']) ++ '|' :: joined (u :: texts) := by
  simp [joined, List.intercalate_cons_cons]

theorem alternatives_of_notMem (h : '|' ∉ t) : alternatives t = [Text.removeBlanks t] :=
  alternatives_eq_iff.2 ⟨[t], List.cons_ne_nil _ _, List.forall_mem_singleton.2 h,
    List.intercalate_singleton, rfl⟩

theorem alternatives_append (h : '|' ∉ u) (t : Text) :
    alternatives (u ++ '|' :: t) = Text.removeBlanks u :: alternatives t := by
  have hsplit : Text.splitOn ['|'] (u ++ '|' :: t) = u :: Text.splitOn ['|'] t :=
    Text.splitOn_append List.not_mem_nil (by rwa [List.singleton_infix_iff]) t
  rw [alternatives, hsplit]
  rfl

theorem Readable.removeBlanks (h : Readable t) : Text.removeBlanks (' ' :: t ++ [' ']) = t :=
  calc Text.removeBlanks (' ' :: t ++ [' ']) = Text.removeBlanks t ++ [] := List.filter_append ..
    _ = t := by rw [List.append_nil, Text.removeBlanks_eq_self h.not_blank]

theorem Readable.ends (h : Readable t) : Ends t := by
  refine ⟨fun hnewline => absurd (h.not_blank _ hnewline) (by decide), t.getLast h.ne_nil, ?_, ?_⟩
  · rw [List.getLast?_eq_some_getLast h.ne_nil]
    rfl
  · exact h.not_blank _ (List.getLast_mem h.ne_nil)

theorem Ends.append (hu : '\n' ∉ u) (h : Ends v) : Ends (u ++ v) := by
  obtain ⟨hv, c, hc, hblank⟩ := h
  refine ⟨by simp [hu, hv], c, ?_, hblank⟩
  rw [List.getLast?_append, Option.mem_def.1 hc]
  rfl

theorem Ends.ne_nil (h : Ends t) : t ≠ [] := by
  rintro rfl
  obtain ⟨-, c, hc, -⟩ := h
  cases hc

theorem Ends.getLast?_ne (h : Ends t) : t.getLast? ≠ some '\r' := by
  obtain ⟨-, c, hc, hblank⟩ := h
  intro hlast
  rw [Option.mem_unique hc hlast] at hblank
  exact absurd hblank (by decide)

theorem alternatives_joined (hne : texts ≠ []) (h : ∀ t ∈ texts, Readable t) :
    alternatives (joined texts) = texts := by
  induction texts with
  | nil => exact absurd rfl hne
  | cons t texts ih =>
    rw [List.forall_mem_cons] at h
    cases texts with
    | nil =>
      have hbar : '|' ∉ ' ' :: t := by simpa using h.1.bar
      have hremove : Text.removeBlanks (' ' :: t) = Text.removeBlanks t := rfl
      rw [joined_singleton, alternatives_of_notMem hbar, hremove,
        Text.removeBlanks_eq_self h.1.not_blank]
    | cons u texts =>
      have hbar : '|' ∉ ' ' :: t ++ [' '] := by simpa using h.1.bar
      rw [joined_cons_cons, alternatives_append hbar, h.1.removeBlanks,
        ih (List.cons_ne_nil _ _) h.2]

theorem not_arrow_cons {c : Char} (hc : c ∉ arrow) (h : ¬ arrow <:+: t) : ¬ arrow <:+: c :: t :=
  Text.not_infix_append_cons hc (u := []) (by decide) h

theorem not_arrow_joined (hne : texts ≠ []) (h : ∀ t ∈ texts, Readable t) :
    ¬ arrow <:+: joined texts := by
  induction texts with
  | nil => exact absurd rfl hne
  | cons t texts ih =>
    rw [List.forall_mem_cons] at h
    have hspace : ¬ arrow <:+: ' ' :: t := not_arrow_cons (by decide) h.1.arrow
    cases texts with
    | nil => rwa [joined_singleton]
    | cons u texts =>
      rw [joined_cons_cons, List.append_assoc]
      exact Text.not_infix_append_cons (by decide) hspace
        (not_arrow_cons (by decide) (ih (List.cons_ne_nil _ _) h.2))

theorem ends_joined (hne : texts ≠ []) (h : ∀ t ∈ texts, Readable t) : Ends (joined texts) := by
  induction texts with
  | nil => exact absurd rfl hne
  | cons t texts ih =>
    rw [List.forall_mem_cons] at h
    cases texts with
    | nil =>
      rw [joined_singleton]
      exact h.1.ends.append (u := [' ']) (by decide)
    | cons u texts =>
      have hfront : '\n' ∉ ' ' :: t ++ [' ', '|'] := by simpa using h.1.ends.1
      have hjoined := (ih (List.cons_ne_nil _ _) h.2).append hfront
      rw [joined_cons_cons]
      simpa using hjoined

/-! ## Printed lines -/

theorem padLeft_eq (width : ℕ) (t : Text) :
    Text.padLeft width t = List.replicate (width - t.length) ' ' ++ t := rfl

theorem newline_notMem_padLeft (width : ℕ) (h : '\n' ∉ t) : '\n' ∉ Text.padLeft width t := by
  simp [padLeft_eq, h]

theorem isBlank_of_mem_spaces {n : ℕ} {c : Char} (h : c ∈ List.replicate n ' ') :
    isBlank c = true := by
  rw [List.eq_of_mem_replicate h]
  decide

theorem not_arrow_of_length (h : (t.filter (· ≠ ' ')).length < 2) : ¬ arrow <:+: t := by
  intro hin
  have hle := (hin.sublist.filter (· ≠ ' ')).length_le
  exact absurd hle (Nat.not_le.2 h)

/-- The line with the arrow. -/
def firstLine (width : ℕ) (left : Text) (texts : List Text) : Text :=
  Text.padLeft width left ++ [' '] ++ arrow ++ joined texts

/-- A line that begins with a bar. -/
def barLine (width : ℕ) (t : Text) : Text :=
  Text.padLeft width [] ++ [' ', ' '] ++ '|' :: joined [t]

theorem ends_firstLine (hleft : '\n' ∉ u) (hne : texts ≠ []) (h : ∀ t ∈ texts, Readable t) :
    Ends (firstLine width u texts) := by
  refine (ends_joined hne h).append ?_
  have hpad := newline_notMem_padLeft width hleft
  simp [hpad, arrow]

theorem ends_barLine (h : Readable t) : Ends (barLine width t) := by
  have hjoined := ends_joined (List.cons_ne_nil _ _) (List.forall_mem_singleton.2 h)
  have hpad : '\n' ∉ Text.padLeft width [] := newline_notMem_padLeft width List.not_mem_nil
  rw [barLine, List.append_cons]
  exact hjoined.append (by simp [hpad])

theorem says_firstLine (hA : isBlank A.char = false) (hne : texts ≠ [])
    (h : ∀ t ∈ texts, Readable t) :
    Line.Says (firstLine width [A.char] texts) (.rule A (joined texts)) := by
  have hspace : A.char ≠ ' ' := by
    intro heq
    rw [heq] at hA
    exact absurd hA (by decide)
  have hbefore : ¬ arrow <:+: Text.padLeft width [A.char] ++ [' '] :=
    not_arrow_of_length (by simp [padLeft_eq, hspace])
  have htrim : Text.trim (Text.padLeft width [A.char] ++ [' ']) = [A.char] := by
    rw [padLeft_eq, List.append_assoc]
    exact Text.trim_append (fun c => isBlank_of_mem_spaces)
      (fun c => isBlank_of_mem_spaces (n := 1)) (by simpa using hA) (by simpa using hA)
      (List.cons_ne_nil _ _)
  exact .rule ⟨rfl, hbefore, not_arrow_joined hne h⟩ htrim

theorem says_barLine (h : Readable t) :
    Line.Says (barLine width t) (.continuation (joined [t])) := by
  have hjoined : ∀ u ∈ [t], Readable u := List.forall_mem_singleton.2 h
  have hfront : ¬ arrow <:+: Text.padLeft width [] ++ [' ', ' '] :=
    not_arrow_of_length (by simp [padLeft_eq])
  have harrow : ¬ arrow <:+: joined [t] := not_arrow_joined (List.cons_ne_nil _ _) hjoined
  have hspaces : Text.padLeft width [] ++ [' ', ' '] = List.replicate (width + 2) ' ' := by
    rw [padLeft_eq, List.append_nil, List.replicate_add]
    rfl
  have hlast : ∀ c ∈ ('|' :: joined [t]).getLast?, isBlank c = false := by
    obtain ⟨-, c, hc, hblank⟩ := (ends_joined (List.cons_ne_nil _ _) hjoined).append (u := ['|'])
      (by decide)
    intro d hd
    rw [Option.mem_unique hd hc]
    exact hblank
  have htrim := Text.trim_append (u := List.replicate (width + 2) ' ') (t := '|' :: joined [t])
    (v := []) (fun c => isBlank_of_mem_spaces) (by simp) (by simp; decide) hlast (by simp)
  refine .continuation (Text.not_infix_append_cons (by decide) hfront harrow) ?_
  rw [barLine, hspaces]
  simpa using htrim

namespace RuleGroup

/-- The lines that a group is printed in. -/
def lines (r : RuleGroup) (width : ℕ) (multiline : Bool) : List Text :=
  match r.rights with
  | [] => []
  | right :: rights =>
    if multiline then firstLine width r.left [right] :: rights.map (barLine width)
    else [firstLine width r.left (right :: rights)]

theorem append_intercalate_newline (front u right : Text) (rights : List Text) :
    front ++ ('\n' :: u).intercalate (right :: rights) =
      ['\n'].intercalate ((front ++ right) :: rights.map (u ++ ·)) := by
  induction rights generalizing front right with
  | nil => simp
  | cons next rights ih =>
    rw [List.map_cons, List.intercalate_cons_cons, List.intercalate_cons_cons, ← ih u next]
    simp

theorem plain_eq (r : RuleGroup) (width : ℕ) (multiline : Bool) :
    r.plain width multiline = ['\n'].intercalate (r.lines width multiline) := by
  obtain ⟨left, rights⟩ := r
  cases rights with
  | nil => cases multiline <;> rfl
  | cons right rights =>
    rw [plain, if_neg (List.cons_ne_nil _ _)]
    cases multiline with
    | false => simp [lines, firstLine, bar, joined, arrow]
    | true =>
      have hbar : barLine width = fun t => Text.padLeft width [] ++ "  | ".toList ++ t := by
        funext t
        simp [barLine, joined]
      rw [bar, if_pos rfl, List.cons_append, append_intercalate_newline]
      simp [lines, hbar, firstLine, joined, arrow]

theorem lines_ne_nil {r : RuleGroup} (hne : r.rights ≠ []) : r.lines width multiline ≠ [] := by
  obtain ⟨right, rights, hrights⟩ := List.exists_cons_of_ne_nil hne
  unfold lines
  rw [hrights]
  cases multiline <;> exact List.cons_ne_nil _ _

theorem ends_of_mem_lines {r : RuleGroup} {line : Text} (hleft : '\n' ∉ r.left)
    (h : ∀ t ∈ r.rights, Readable t) (hline : line ∈ r.lines width multiline) : Ends line := by
  unfold lines at hline
  cases hrights : r.rights with
  | nil => simp [hrights] at hline
  | cons right rights =>
    rw [hrights] at h hline
    cases multiline with
    | false =>
      obtain rfl := List.mem_singleton.1 hline
      exact ends_firstLine hleft (List.cons_ne_nil _ _) h
    | true =>
      rw [List.forall_mem_cons] at h
      rcases List.mem_cons.1 hline with rfl | hline
      · exact ends_firstLine hleft (List.cons_ne_nil _ _) (List.forall_mem_singleton.2 h.1)
      · obtain ⟨t, ht, rfl⟩ := List.mem_map.1 hline
        exact ends_barLine (h.2 t ht)

end RuleGroup

/-! ## Reading printed lines -/

namespace Reader

variable {r : Reader} {line : Text}

theorem addLine_rule (h : Line.Says line (.rule A t)) :
    r.addLine line = .ok ⟨r.grammar.addAlternatives A t, some A⟩ := by
  rw [addLine, Line.read_eq_ok h]
  rfl

theorem addLine_continuation (h : Line.Says line (.continuation t)) (hleft : r.left? = some A) :
    r.addLine line = .ok ⟨r.grammar.addAlternatives A t, some A⟩ := by
  simp [addLine, Line.read_eq_ok h, hleft, bind, Except.bind]

end Reader

/-- The grammar with a rule for each of some texts. -/
def Grammar.addTexts (g : Grammar) (A : Nonterminal) (texts : List Text) : Grammar :=
  ⟨g.rules ++ texts.map (.ofText A)⟩

theorem Grammar.addAlternatives_eq (g : Grammar) (A : Nonterminal) (t : Text) :
    g.addAlternatives A t = g.addTexts A (alternatives t) := by
  unfold addAlternatives
  induction alternatives t generalizing g with
  | nil => simp [addTexts]
  | cons right rights ih =>
    rw [List.foldl_cons, ih]
    simp [addTexts]

theorem Grammar.addTexts_addTexts (g : Grammar) (A : Nonterminal) (texts more : List Text) :
    (g.addTexts A texts).addTexts A more = g.addTexts A (texts ++ more) := by
  simp [addTexts]

namespace Reader

variable {r : Reader}

theorem addLine_firstLine (hA : isBlank A.char = false) (hne : texts ≠ [])
    (h : ∀ t ∈ texts, Readable t) :
    r.addLine (firstLine width [A.char] texts) = .ok ⟨r.grammar.addTexts A texts, some A⟩ := by
  rw [addLine_rule (says_firstLine hA hne h), Grammar.addAlternatives_eq, alternatives_joined hne h]

theorem addLine_barLine (hleft : r.left? = some A) (h : Readable t) :
    r.addLine (barLine width t) = .ok ⟨r.grammar.addTexts A [t], some A⟩ := by
  rw [addLine_continuation (says_barLine h) hleft, Grammar.addAlternatives_eq,
    alternatives_joined (List.cons_ne_nil _ _) (List.forall_mem_singleton.2 h)]

theorem foldlM_barLines (hleft : r.left? = some A) (h : ∀ t ∈ texts, Readable t) :
    (texts.map (barLine width)).foldlM addLine r = .ok ⟨r.grammar.addTexts A texts, some A⟩ := by
  induction texts generalizing r with
  | nil =>
    rw [Grammar.addTexts, List.map_nil (f := Rule.ofText A), List.append_nil, ← hleft]
    rfl
  | cons t texts ih =>
    rw [List.forall_mem_cons] at h
    rw [List.map_cons, List.foldlM_cons, addLine_barLine hleft h.1]
    show List.foldlM addLine (⟨r.grammar.addTexts A [t], some A⟩ : Reader) _ = _
    rw [ih rfl h.2, Grammar.addTexts_addTexts, List.singleton_append]

/-- **Reading a printed group** adds its productions to its left side. -/
theorem foldlM_lines (hA : isBlank A.char = false) (hne : texts ≠ [])
    (h : ∀ t ∈ texts, Readable t) :
    ((⟨[A.char], texts⟩ : RuleGroup).lines width multiline).foldlM addLine r =
      .ok ⟨r.grammar.addTexts A texts, some A⟩ := by
  obtain ⟨right, rights, rfl⟩ := List.exists_cons_of_ne_nil hne
  cases multiline with
  | false =>
    show List.foldlM addLine r [firstLine width [A.char] (right :: rights)] = _
    rw [List.foldlM_cons, addLine_firstLine hA hne h]
    rfl
  | true =>
    rw [List.forall_mem_cons] at h
    show List.foldlM addLine r (firstLine width [A.char] [right] :: rights.map (barLine width)) = _
    rw [List.foldlM_cons, addLine_firstLine hA (List.cons_ne_nil _ _)
      (List.forall_mem_singleton.2 h.1)]
    show List.foldlM addLine (⟨r.grammar.addTexts A [right], some A⟩ : Reader) _ = _
    rw [foldlM_barLines rfl h.2, Grammar.addTexts_addTexts, List.singleton_append]

theorem foldlM_addNumbered {ls : List Text} {r' : Reader} (h : ls.foldlM addLine r = .ok r')
    (k : ℕ) : (ls.zipIdx k).foldlM addNumbered r = .ok r' := by
  induction ls generalizing r k with
  | nil =>
    cases h
    rfl
  | cons line ls ih =>
    rw [List.foldlM_cons] at h
    rw [List.zipIdx_cons, List.foldlM_cons, addNumbered]
    cases hline : r.addLine line with
    | error fault =>
      rw [hline] at h
      cases h
    | ok next =>
      rw [hline] at h
      exact ih h _

end Reader

/-! ## The printed productions of a grammar -/

/-- A rule can be printed and read back: no symbol of it is white space, and its right side has no
bar and no arrow. -/
structure Rule.Printable (r : Rule) : Prop where
  left : isBlank r.left.char = false
  right : ∀ c ∈ r.right, isBlank c = false
  bar : '|' ∉ r.right
  arrow : ¬ arrow <:+: r.right

theorem Rule.printable_iff {r : Rule} : r.Printable ↔ isBlank r.left.char = false ∧
    r.right.all (fun c => !isBlank c && c != '|') = true ∧ ¬ PredictiveParsing.arrow <:+: r.right := by
  simp only [List.all_eq_true, Bool.and_eq_true, Bool.not_eq_true', bne_iff_ne]
  constructor
  · exact fun h => ⟨h.left, fun c hc => ⟨h.right c hc, ne_of_mem_of_not_mem hc h.bar⟩, h.arrow⟩
  · exact fun ⟨hleft, hright, harrow⟩ =>
      ⟨hleft, fun c hc => (hright c hc).1, fun hbar => (hright _ hbar).2 rfl, harrow⟩

instance : DecidablePred Rule.Printable := fun _ => decidable_of_iff _ Rule.printable_iff.symm

theorem Rule.Printable.readable {r : Rule} (h : r.Printable) : Readable (shown r.right) := by
  unfold Forest.shown
  split
  · exact ⟨List.cons_ne_nil _ _, List.forall_mem_singleton.2 (by decide), by decide, by decide⟩
  · exact ⟨‹_›, h.right, h.bar, h.arrow⟩

theorem filter_ne_epsilon_shown (h : epsilon ∉ right) :
    (shown right).filter (· ≠ epsilon) = right := by
  unfold Forest.shown
  split
  · rw [‹right = []›]
    rfl
  · exact List.filter_eq_self.2 fun c hc => by simpa using ne_of_mem_of_not_mem hc h

theorem Rule.ofText_shown (r : Rule) : Rule.ofText r.left (shown r.right) = r := by
  have hright := filter_ne_epsilon_shown r.epsilon_notMem
  obtain ⟨left, right, h⟩ := r
  simp only [Rule.ofText, Rule.mk.injEq, true_and]
  exact hright

namespace Grammar

variable {g : Grammar} {B s : Char}

/-- The productions of a left side as they are printed. -/
def group (g : Grammar) (B : Char) : RuleGroup := ⟨[B], (g.productions B).map shown⟩

theorem bodyText_map_code (hs : s ∈ g.nonterminals) (h : right ∈ g.productions B) :
    (g.number s).bodyText (right.map (g.number s).code) = shown right := by
  have hname : ∀ c ∈ right, (g.number s).nameOf ((g.number s).code c) = [c] := fun c hc =>
    NumberedGrammar.nameOf_code (Occurs.mem_names hs (Or.inr ⟨B, right, h, hc⟩))
  rw [NumberedGrammar.bodyText, List.flatMap_map, List.flatMap_congr hname,
    List.flatMap_singleton']
  simp [Forest.shown]

theorem ruleGroups_number (hs : s ∈ g.nonterminals) :
    (g.number s).ruleGroups.eraseIdx (g.number s).augmentedStart = g.nonterminals.map g.group := by
  have haug : (g.number s).augmentedStart = g.nonterminals.length := by
    rw [NumberedGrammar.augmentedStart, length_nonterminals_number, Nat.add_sub_cancel]
  have hgroup : ∀ B ∈ g.nonterminals, (⟨[B], ((g.productions B).map fun right =>
      right.map (g.number s).code).map (g.number s).bodyText⟩ : RuleGroup) = g.group B := by
    intro B _
    rw [group, List.map_map]
    congr 1
    exact List.map_congr_left fun right hright => bodyText_map_code hs hright
  rw [haug, NumberedGrammar.ruleGroups]
  change List.eraseIdx (List.zipWith _ (g.nonterminals.map _ ++ [_])
    (g.nonterminals.map _ ++ [_])) _ = _
  rw [List.zipWith_append (by simp), List.eraseIdx_append_of_length_le (by simp),
    List.zipWith_map, List.zipWith_self, List.length_map, Nat.sub_self]
  exact (List.append_nil _).trans (List.map_congr_left hgroup)

theorem map_ofText_group (g : Grammar) (A : Nonterminal) :
    (g.group A.char).rights.map (.ofText A) = g.rulesOf A.char := by
  rw [group, productions_eq, List.map_map, List.map_map]
  refine (List.map_congr_left fun r hr => ?_).trans (List.map_id _)
  have hleft : r.left = A := Nonterminal.eq_of_char_eq (mem_rulesOf.1 hr).2
  simp only [Function.comp_apply, ← hleft, Rule.ofText_shown, id_eq]

theorem readable_of_mem_group (h : ∀ r ∈ g.rules, r.Printable) (ht : t ∈ (g.group B).rights) :
    Readable t := by
  obtain ⟨right, hright, rfl⟩ := List.mem_map.1 ht
  obtain ⟨r, hr, -, rfl⟩ := mem_productions.1 hright
  exact (h r hr).readable

theorem group_rights_ne_nil (hB : B ∈ g.nonterminals) : (g.group B).rights ≠ [] := by
  simpa [group, productions_eq] using rulesOf_ne_nil hB

theorem foldlM_groups (h : ∀ r ∈ g.rules, r.Printable) (width : ℕ) (multiline : Bool)
    {Bs : List Char} (hBs : ∀ B ∈ Bs, B ∈ g.nonterminals) (r : Reader) :
    ∃ left?, (Bs.flatMap fun B => (g.group B).lines width multiline).foldlM Reader.addLine r =
      .ok ⟨⟨r.grammar.rules ++ Bs.flatMap g.rulesOf⟩, left?⟩ := by
  induction Bs generalizing r with
  | nil => exact ⟨r.left?, by rw [List.flatMap_nil, List.flatMap_nil, List.append_nil]; rfl⟩
  | cons B Bs ih =>
    rw [List.forall_mem_cons] at hBs
    obtain ⟨r₀, hr₀, rfl⟩ := mem_nonterminals.1 hBs.1
    have hlines : ((g.group r₀.left.char).lines width multiline).foldlM Reader.addLine r =
        .ok ⟨⟨r.grammar.rules ++ g.rulesOf r₀.left.char⟩, some r₀.left⟩ := by
      rw [← map_ofText_group]
      exact Reader.foldlM_lines (h r₀ hr₀).left (group_rights_ne_nil hBs.1) fun t =>
        readable_of_mem_group h
    obtain ⟨left?, ih⟩ := ih hBs.2 ⟨⟨r.grammar.rules ++ g.rulesOf r₀.left.char⟩, some r₀.left⟩
    refine ⟨left?, ?_⟩
    rw [List.flatMap_cons, List.foldlM_append, hlines, List.flatMap_cons, ← List.append_assoc]
    exact ih

theorem lines_intercalate_plain (h : ∀ r ∈ g.rules, r.Printable) (width : ℕ) (multiline : Bool) :
    Text.lines (['\n'].intercalate (g.nonterminals.map fun B => (g.group B).plain width multiline)) =
      g.nonterminals.flatMap fun B => (g.group B).lines width multiline := by
  have hends : ∀ line ∈ g.nonterminals.flatMap fun B => (g.group B).lines width multiline,
      Ends line := by
    intro line hline
    obtain ⟨B, hB, hline⟩ := List.mem_flatMap.1 hline
    obtain ⟨r, hr, rfl⟩ := mem_nonterminals.1 hB
    refine RuleGroup.ends_of_mem_lines (fun hnewline => ?_) (fun t => readable_of_mem_group h) hline
    have hblank := (h r hr).left
    rw [← List.mem_singleton.1 hnewline] at hblank
    exact absurd hblank (by decide)
  have hne : [] ∉ g.nonterminals.map fun B => (g.group B).lines width multiline := by
    intro hmem
    obtain ⟨B, hB, hlines⟩ := List.mem_map.1 hmem
    exact RuleGroup.lines_ne_nil (group_rights_ne_nil hB) hlines
  have hjoin := Text.intercalate_map_intercalate ['\n'] hne
  rw [List.map_map] at hjoin
  simp only [RuleGroup.plain_eq]
  rw [List.flatMap_def] at hends ⊢
  refine (congrArg Text.lines hjoin).trans (Text.lines_intercalate ?_ ?_ ?_)
  · exact fun line hline => (hends line hline).1
  · exact fun line hline => (hends line hline).getLast?_ne
  · exact fun line hline => (hends line hline).ne_nil

/-- **Printed productions are read back.** The groups of the nonterminals of a grammar, each on one
line or with one production to a line, make a grammar text. It is read as a grammar with the same
start symbol, the same nonterminals in the same order, and the same productions of each of them. -/
theorem read_printed (hne : g.rules ≠ []) (h : ∀ r ∈ g.rules, r.Printable) (width : ℕ)
    (multiline : Bool) : ∃ n g', g.number? = some n ∧
      Grammar.read (['\n'].intercalate ((n.ruleGroups.eraseIdx n.augmentedStart).map fun r =>
        r.plain width multiline)) = .ok g' ∧
      g'.start? = g.start? ∧ g'.nonterminals = g.nonterminals ∧
      ∀ B, g'.productions B = g.productions B := by
  obtain ⟨r, rs, hrs⟩ := List.exists_cons_of_ne_nil hne
  have hs : g.start? = some r.left.char := by rw [start?, hrs]; rfl
  refine ⟨g.number r.left.char, g.grouped, by rw [number?, hs]; rfl, ?_, start?_grouped g,
    nonterminals_grouped g, productions_grouped g⟩
  obtain ⟨left?, hfold⟩ := foldlM_groups h width multiline (fun B hB => hB) .start
  have hlines := lines_intercalate_plain h width multiline
  rw [ruleGroups_number (start_mem_nonterminals hs), List.map_map, Function.comp_def, Grammar.read,
    hlines, Reader.foldlM_addNumbered hfold]
  rfl

end Grammar

/-! ## A grammar of signs -/

/-- The nonterminal `|`. -/
def Nonterminal.bar : Nonterminal := ⟨'|', by decide, by decide⟩

/-- The nonterminal `-`. -/
def Nonterminal.dash : Nonterminal := ⟨'-', by decide, by decide⟩

/-- Left sides that look like the signs around them, in rules that take turns: `|` is `>-` or empty,
and `-` is empty, twice. -/
def Grammar.signs : Grammar where
  rules := [.ofText .bar ['>', '-'], .ofText .dash [], .ofText .bar [], .ofText .dash []]

theorem Grammar.read_printed_signs : signs.rules ≠ [] ∧ (∀ r ∈ signs.rules, r.Printable) ∧
    ∃ n g', signs.number? = some n ∧
      Grammar.read (['\n'].intercalate ((n.ruleGroups.eraseIdx n.augmentedStart).map fun r =>
        r.plain 3 true)) = .ok g' ∧
      g'.start? = signs.start? ∧ g'.nonterminals = signs.nonterminals ∧
      ∀ B, g'.productions B = signs.productions B := by
  have hne : signs.rules ≠ [] := List.cons_ne_nil _ _
  have h : ∀ r ∈ signs.rules, r.Printable := by decide
  exact ⟨hne, h, read_printed hne h 3 true⟩

end PredictiveParsing
