import Mathlib
import PredictiveParsing.Grammar.Reader
import PredictiveParsing.Proofs.Text.Pieces

/-!
# What a grammar text says

A line of a grammar text is blank, or a rule with one arrow behind a single symbol, or it adds
alternatives to the rule above it. A text whose lines are all of these forms is read, line by line,
as the grammar to which their alternatives are added; in any other text the first line that is of
none of these forms is reported.

* `Line.Says`, `Line.Fails`: the forms of a line, and the complaint about a line of no such form;
  `read_eq_ok`, **`finds_read`**: reading a line finds the one or the other;
* `WellPlaced`, `WellFormed`: a line below others, and a whole text, as they should be;
* `additions`: the rules that some lines add;
* `Reader.HasRead`, `FirstFault`, **`hasRead_or_firstFault`**: what is kept from line to line;
* **`read_exact`**: what is read, and what is reported.
-/

namespace PredictiveParsing

/-- What stands between the two sides of a rule. -/
def arrow : Text := ['-', '>']

/-! ## One line -/

namespace Line

/-- The line has nothing but white space. -/
def Blank (line : Text) : Prop := ∀ c ∈ line, isBlank c = true

/-- The line has exactly one arrow, between two texts. -/
structure OneArrow (line before after : Text) : Prop where
  eq : line = before ++ arrow ++ after
  before : ¬ arrow <:+: before
  after : ¬ arrow <:+: after

/-- What a line says: nothing if it is blank; the alternatives of a symbol that stands before its
only arrow; more alternatives if it has no arrow and begins with a bar. -/
inductive Says (line : Text) : Line → Prop where
  | blank (h : Blank line) : Says line .blank
  | rule {before after : Text} {A : Nonterminal} (h : OneArrow line before after)
      (hleft : Text.trim before = [A.char]) : Says line (.rule A after)
  | continuation {alternatives : Text} (h : ¬ arrow <:+: line)
      (hbar : Text.trim line = '|' :: alternatives) : Says line (.continuation alternatives)

/-- The complaint about a line that should say something and does not. -/
inductive Fails (line : Text) : Text → Prop where
  | tooManyArrows {a b c : Text} (h : line = a ++ arrow ++ b ++ arrow ++ c) :
    Fails line "too many \"->\"".toList
  | emptyLeft {before after : Text} (h : OneArrow line before after)
      (hleft : Text.trim before = []) : Fails line "empty left side".toList
  | longLeft {before after : Text} (h : OneArrow line before after)
      (hleft : 2 ≤ (Text.trim before).length) :
    Fails line "left side must be a single symbol".toList
  | reservedLeft {before after : Text} (h : OneArrow line before after)
      (hleft : Text.trim before = [endMark] ∨ Text.trim before = [epsilon]) :
    Fails line "reserved symbol on left side".toList
  | missingLeft (h : ¬ arrow <:+: line) : Fails line "cannot find left side".toList

variable {line before after : Text} {l : Line}

theorem all_isBlank_iff : line.all isBlank = true ↔ Blank line := List.all_eq_true

theorem OneArrow.not_blank (h : OneArrow line before after) : ¬ Blank line := by
  intro hblank
  have hdash : isBlank '-' = true := hblank '-' (by rw [h.eq]; simp [arrow])
  exact absurd hdash (by decide)

theorem trim_of_blank (h : Blank line) : Text.trim line = [] := by
  rw [Text.trim, List.dropWhile_eq_nil_iff.2 h]
  rfl

theorem OneArrow.splitOn_eq (h : OneArrow line before after) :
    Text.splitOn arrow line = [before, after] := by
  rw [h.eq, List.append_assoc, arrow, Text.splitOn_append (by decide) h.before]
  exact congrArg _ (Text.splitOn_of_not_infix h.after)

theorem Says.not_blank (h : Says line l) (hl : l ≠ .blank) : ¬ Blank line := by
  cases h with
  | blank => exact absurd rfl hl
  | rule h => exact h.not_blank
  | continuation _ hbar =>
    intro hblank
    rw [trim_of_blank hblank] at hbar
    cases hbar

/-- **A line of one of the forms** is read as what it says. -/
theorem read_eq_ok (h : Says line l) : Line.read line = .ok l := by
  by_cases hl : l = .blank
  · subst hl
    obtain ⟨h⟩ := h
    rw [Line.read, if_pos (all_isBlank_iff.2 h)]
  rw [Line.read, if_neg (mt all_isBlank_iff.1 (h.not_blank hl))]
  cases h with
  | blank => exact absurd rfl hl
  | @rule before after A h hleft =>
    have hsplit : Text.splitOn ['-', '>'] line = [before, after] := h.splitOn_eq
    simp only [hsplit, hleft, Nonterminal.ofChar?_eq_some_iff.2 rfl]
  | @continuation t h hbar =>
    have hsplit : Text.splitOn ['-', '>'] line = [line] := Text.splitOn_of_not_infix h
    simp only [hsplit, hbar]

theorem Says.unique {l' : Line} (h : Says line l) (h' : Says line l') : l = l' :=
  Except.ok.inj ((read_eq_ok h).symm.trans (read_eq_ok h'))

theorem splitOn_arrow_eq_iff {pieces : List Text} : Text.splitOn ['-', '>'] line = pieces ↔
    pieces ≠ [] ∧ (∀ piece ∈ pieces, ¬ arrow <:+: piece) ∧ arrow.intercalate pieces = line :=
  Text.splitOn_eq_iff (by decide)

/-- What is found in a line: what it says, or what there is to complain about. -/
def Finds (line : Text) : Except LineFault Line → Prop
  | .ok l => Says line l
  | .error fault => Fails line fault.message

theorem finds_read (line : Text) : Finds line (Line.read line) := by
  generalize hread : Line.read line = result
  unfold Line.read at hread
  by_cases hblank : Blank line
  · rw [if_pos (all_isBlank_iff.2 hblank)] at hread
    subst hread
    exact Says.blank hblank
  rw [if_neg (mt all_isBlank_iff.1 hblank)] at hread
  -- The cases are those of the number of pieces, which is one more than the number of arrows.
  rcases hsplit : Text.splitOn ['-', '>'] line with _ | ⟨before, _ | ⟨after, _ | ⟨c, pieces⟩⟩⟩ <;>
    rw [hsplit] at hread <;> rw [splitOn_arrow_eq_iff] at hsplit <;>
    obtain ⟨hne, hpieces, hjoin⟩ := hsplit
  · exact absurd rfl hne
  · obtain rfl : before = line := by rwa [List.intercalate_singleton] at hjoin
    have harrow : ¬ arrow <:+: before := hpieces before List.mem_cons_self
    dsimp only at hread
    split at hread <;> subst hread
    · exact Says.continuation harrow ‹_›
    · exact Fails.missingLeft harrow
  · have harrow : OneArrow line before after :=
      ⟨by simpa [List.intercalate_cons_cons] using hjoin.symm, hpieces before (by simp),
        hpieces after (by simp)⟩
    rcases hleft : Text.trim before with _ | ⟨c, _ | ⟨d, rest⟩⟩ <;> simp only [hleft] at hread
    · subst hread
      exact Fails.emptyLeft harrow hleft
    · split at hread <;> rename_i hA <;> subst hread
      · exact Says.rule harrow (by rw [hleft, Nonterminal.ofChar?_eq_some_iff.1 hA])
      · refine Fails.reservedLeft harrow ?_
        rcases Nonterminal.ofChar?_eq_none_iff.1 hA with rfl | rfl
        · exact .inl hleft
        · exact .inr hleft
    · subst hread
      exact Fails.longLeft harrow (by simp [hleft])
  · subst hread
    refine Fails.tooManyArrows (a := before) (b := after) (c := arrow.intercalate (c :: pieces)) ?_
    simp [← hjoin, List.intercalate_cons_cons]

end Line

/-! ## Alternatives -/

theorem alternatives_eq_iff {t : Text} {rights : List Text} : alternatives t = rights ↔
    ∃ pieces, pieces ≠ [] ∧ (∀ piece ∈ pieces, '|' ∉ piece) ∧ ['|'].intercalate pieces = t ∧
      pieces.map Text.removeBlanks = rights := by
  have hsplit (pieces : List Text) : Text.splitOn ['|'] t = pieces ↔
      pieces ≠ [] ∧ (∀ piece ∈ pieces, '|' ∉ piece) ∧ ['|'].intercalate pieces = t := by
    rw [Text.splitOn_eq_iff List.not_mem_nil]
    simp only [List.singleton_infix_iff]
  constructor
  · rintro rfl
    obtain ⟨hne, hpieces, hjoin⟩ := (hsplit _).1 rfl
    exact ⟨_, hne, hpieces, hjoin, rfl⟩
  · rintro ⟨pieces, hne, hpieces, hjoin, rfl⟩
    rw [alternatives, (hsplit pieces).2 ⟨hne, hpieces, hjoin⟩]

namespace Grammar

/-- Adds the rules of a list, each given by a left side and a text. -/
def addRules? (g : Grammar) (rules : List (Char × Text)) : Except Error Grammar :=
  rules.foldlM (fun g (left, right) => g.addRule? left right) g

theorem addRules?_append (g : Grammar) (rules more : List (Char × Text)) :
    g.addRules? (rules ++ more) = g.addRules? rules >>= (·.addRules? more) :=
  List.foldlM_append

theorem addRules?_cons (g : Grammar) (A : Nonterminal) (right : Text)
    (rules : List (Char × Text)) :
    g.addRules? ((A.char, right) :: rules) = (g.add (.ofText A right)).addRules? rules := by
  simp only [addRules?, List.foldlM_cons, addRule?, Nonterminal.ofChar?_eq_some_iff.2 rfl]
  rfl

theorem addRules?_alternatives (g : Grammar) (A : Nonterminal) (t : Text) :
    g.addRules? ((alternatives t).map (A.char, ·)) = .ok (g.addAlternatives A t) := by
  unfold addAlternatives
  induction alternatives t generalizing g with
  | nil => rfl
  | cons right rights ih =>
    rw [List.map_cons, addRules?_cons, ih]
    rfl

end Grammar

/-! ## The rules that lines add -/

/-- The left side that a line has. -/
def Line.left? : Line → Option Nonterminal
  | .rule A _ => some A
  | _ => none

/-- The alternatives that a line has. -/
def Line.rights : Line → List Text
  | .blank => []
  | .rule _ t => alternatives t
  | .continuation t => alternatives t

/-- The left side of the last rule line. -/
def lastLeft? (found : List Line) : Option Nonterminal := (found.filterMap Line.left?).getLast?

/-- The rules that lines add, in the order of the lines: every alternative of a line makes a rule of
the left side of the nearest rule line, which is that line itself or stands above it. -/
def additions (found : List Line) : List (Char × Text) :=
  found.zipIdx.flatMap fun (l, i) =>
    (lastLeft? (found.take (i + 1))).toList.flatMap fun A => l.rights.map (A.char, ·)

theorem lastLeft?_concat (found : List Line) (l : Line) :
    lastLeft? (found ++ [l]) = l.left?.or (lastLeft? found) := by
  unfold lastLeft?
  cases h : l.left? <;> simp [List.filterMap_append, h]

theorem additions_concat (found : List Line) (l : Line) :
    additions (found ++ [l]) = additions found ++
      (lastLeft? (found ++ [l])).toList.flatMap fun A => l.rights.map (A.char, ·) := by
  unfold additions
  rw [List.zipIdx_append, List.flatMap_append]
  congr 1
  · refine List.flatMap_congr fun ⟨l, i⟩ h => ?_
    have hi : i < found.length := by simpa using (List.mem_zipIdx h).2.1
    simp [List.take_append_of_le_length (show i + 1 ≤ found.length from hi)]
  · have hall : (found ++ [l]).take (found.length + 1) = found ++ [l] :=
      List.take_of_length_le (by simp)
    simp [hall]

theorem additions_blank (found : List Line) : additions (found ++ [.blank]) = additions found := by
  rw [additions_concat]
  cases lastLeft? (found ++ [.blank]) <;> simp [Line.rights]

/-! ## All lines -/

/-- A line below others is as it should be: blank, a rule, or alternatives below some line that is
not blank. -/
def WellPlaced (earlier : List Text) (line : Text) : Prop :=
  Line.Blank line ∨ (∃ A t, Line.Says line (.rule A t)) ∨
    ((∃ t, Line.Says line (.continuation t)) ∧ ∃ above ∈ earlier, ¬ Line.Blank above)

/-- All lines are as they should be. -/
def WellFormed (ls : List Text) : Prop :=
  ∀ earlier line, earlier ++ [line] <+: ls → WellPlaced earlier line

/-- The error is the fault of the first line that is not as it should be, with the number of the
line, counted from one, and the complaint about it. -/
def FirstFault (ls : List Text) (e : Error) : Prop :=
  ∃ earlier line fault, earlier ++ [line] <+: ls ∧ WellFormed earlier ∧
    ¬ WellPlaced earlier line ∧ Line.Fails line fault.message ∧
    e = .malformedLine (earlier.length + 1) fault

variable {ls : List Text} {line : Text} {found : List Line} {l : Line} {r : Reader}

theorem wellFormed_concat :
    WellFormed (ls ++ [line]) ↔ WellFormed ls ∧ WellPlaced ls line := by
  constructor
  · intro h
    exact ⟨fun earlier line hpre => h _ _ (hpre.trans (List.prefix_append _ _)),
      h _ _ (List.prefix_refl _)⟩
  · rintro ⟨h, hline⟩ earlier line hpre
    rcases List.prefix_concat_iff.1 hpre with heq | hpre
    · obtain ⟨rfl, rfl⟩ := List.append_inj' heq rfl |>.imp id List.singleton_inj.1
      exact hline
    · exact h _ _ hpre

theorem FirstFault.not_wellFormed {e : Error} (h : FirstFault ls e) : ¬ WellFormed ls := by
  obtain ⟨earlier, line, fault, hpre, -, hplace, -⟩ := h
  exact fun hls => hplace (hls _ _ hpre)

/-- What has been read of some lines: what each of them says, the rules that they add, and the left
side that a continuation below them is for. -/
structure Reader.HasRead (r : Reader) (ls : List Text) (found : List Line) : Prop where
  lines : List.Forall₂ Line.Says ls found
  wellFormed : WellFormed ls
  grammar : Grammar.empty.addRules? (additions found) = .ok r.grammar
  left : r.left? = lastLeft? found
  left_none : r.left? = none ↔ ∀ line ∈ ls, Line.Blank line

namespace Reader

theorem hasRead_start : HasRead .start [] [] where
  lines := .nil
  wellFormed earlier line hpre := by simp at hpre
  grammar := rfl
  left := rfl
  left_none := by simp [start]

theorem HasRead.blank (h : HasRead r ls found) (hline : Line.Blank line) :
    HasRead r (ls ++ [line]) (found ++ [.blank]) where
  lines := List.rel_append h.lines (.cons (.blank hline) .nil)
  wellFormed := wellFormed_concat.2 ⟨h.wellFormed, .inl hline⟩
  grammar := by rw [additions_blank, h.grammar]
  left := by rw [lastLeft?_concat, h.left]; rfl
  left_none := by
    rw [h.left_none]
    simp [or_imp, forall_and, hline]

theorem HasRead.add {A : Nonterminal} {t : Text} (h : HasRead r ls found)
    (hline : Line.Says line l) (hplace : WellPlaced ls line) (hl : l ≠ .blank)
    (hlast : lastLeft? (found ++ [l]) = some A) (hrights : l.rights = alternatives t) :
    HasRead ⟨r.grammar.addAlternatives A t, some A⟩ (ls ++ [line]) (found ++ [l]) where
  lines := List.rel_append h.lines (.cons hline .nil)
  wellFormed := wellFormed_concat.2 ⟨h.wellFormed, hplace⟩
  grammar := by
    rw [additions_concat, Grammar.addRules?_append, h.grammar, hlast, hrights,
      Option.toList_some, List.flatMap_singleton]
    exact Grammar.addRules?_alternatives r.grammar A t
  left := hlast.symm
  left_none := by
    refine iff_of_false (Option.some_ne_none A) fun hblank => hline.not_blank hl ?_
    exact hblank line (by simp)

/-- **Reading one more line**: it is as it should be, or at fault. -/
theorem HasRead.addLine (h : HasRead r ls found) (line : Text) :
    (∃ r' l, r.addLine line = .ok r' ∧ HasRead r' (ls ++ [line]) (found ++ [l])) ∨
      ∃ fault, r.addLine line = .error fault ∧ Line.Fails line fault.message ∧
        ¬ WellPlaced ls line := by
  have hfinds := Line.finds_read line
  unfold Reader.addLine
  cases hread : Line.read line with
  | error fault =>
    rw [hread] at hfinds
    refine .inr ⟨fault, rfl, hfinds, ?_⟩
    have hnone (l : Line) : ¬ Line.Says line l := fun hl => by
      cases hread.symm.trans (Line.read_eq_ok hl)
    rintro (hblank | ⟨A, t, hl⟩ | ⟨⟨t, hl⟩, -⟩)
    exacts [hnone _ (.blank hblank), hnone _ hl, hnone _ hl]
  | ok l =>
    rw [hread] at hfinds
    cases l with
    | blank =>
      obtain ⟨hblank⟩ := hfinds
      exact .inl ⟨r, .blank, rfl, h.blank hblank⟩
    | rule A t =>
      exact .inl ⟨_, .rule A t, rfl, h.add hfinds (.inr (.inl ⟨A, t, hfinds⟩)) (by simp)
        (by simp [lastLeft?_concat, Line.left?]) rfl⟩
    | continuation t =>
      cases hleft : r.left? with
      | some A =>
        have hplace : WellPlaced ls line := by
          refine .inr (.inr ⟨⟨t, hfinds⟩, ?_⟩)
          have hsome := mt h.left_none.2 (by simp [hleft])
          simpa using hsome
        exact .inl ⟨_, .continuation t, rfl, h.add hfinds hplace (by simp)
          (by rw [lastLeft?_concat, ← h.left, hleft]; rfl) rfl⟩
      | none =>
        refine .inr ⟨.missingLeft, rfl, ?_, ?_⟩
        · cases hfinds with
          | continuation harrow => exact .missingLeft harrow
        · rintro (hblank | ⟨A, t', hl⟩ | ⟨-, above, habove, hne⟩)
          · exact hfinds.not_blank (by simp) hblank
          · cases hfinds.unique hl
          · exact hne (h.left_none.1 hleft above habove)

/-- **Reading some lines**: all are as they should be, or the first that is not is reported. -/
theorem hasRead_or_firstFault (ls : List Text) :
    (∃ r found, (ls.zipIdx 1).foldlM addNumbered start = .ok r ∧ HasRead r ls found) ∨
      ∃ e, (ls.zipIdx 1).foldlM addNumbered start = .error e ∧ FirstFault ls e := by
  induction ls using List.reverseRecOn with
  | nil => exact .inl ⟨_, _, rfl, hasRead_start⟩
  | append_singleton ls line ih =>
    rw [List.zipIdx_append, List.foldlM_append]
    rcases ih with ⟨r, found, hfold, h⟩ | ⟨e, hfold, earlier, line', fault, hpre, hfault⟩ <;>
      rw [hfold]
    · rcases h.addLine line with ⟨r', l, hline, h'⟩ | ⟨fault, hline, hfails, hplace⟩
      · refine .inl ⟨r', found ++ [l], ?_, h'⟩
        simp [addNumbered, hline, Except.mapError, bind, Except.bind, pure, Except.pure]
      · refine .inr ⟨.malformedLine (ls.length + 1) fault, ?_, ls, line, fault, List.prefix_refl _,
          h.wellFormed, hplace, hfails, rfl⟩
        simp [addNumbered, hline, Except.mapError, bind, Except.bind, Nat.add_comm]
    · exact .inr ⟨e, rfl, earlier, line', fault, hpre.trans (List.prefix_append _ _), hfault⟩

end Reader

/-- **Reading a grammar**: a text is read when all its lines are as they should be, and then as the
grammar with the rules that they add one after the other. Otherwise the fault of the first line that
is not as it should be is reported. The alternatives of a line are the parts between its bars, less
their white space. -/
theorem Grammar.read_exact (t : Text) :
    Text.IsCut t (Text.lines t) ∧
      (∀ (line : Text) (rights : List Text), alternatives line = rights ↔
        ∃ pieces, pieces ≠ [] ∧ (∀ piece ∈ pieces, '|' ∉ piece) ∧
          ['|'].intercalate pieces = line ∧ pieces.map Text.removeBlanks = rights) ∧
      ((∃ g, Grammar.read t = .ok g) ↔ WellFormed (Text.lines t)) ∧
      (∀ g, Grammar.read t = .ok g → ∃ found, List.Forall₂ Line.Says (Text.lines t) found ∧
        Grammar.empty.addRules? (additions found) = .ok g) ∧
      ∀ e, Grammar.read t = .error e → FirstFault (Text.lines t) e := by
  refine ⟨Text.isCut_iff.2 rfl, fun _ _ => alternatives_eq_iff, ?_⟩
  unfold Grammar.read
  rcases Reader.hasRead_or_firstFault (Text.lines t) with ⟨r, found, hfold, h⟩ | ⟨e, hfold, h⟩ <;>
    rw [hfold]
  · refine ⟨iff_of_true ⟨r.grammar, rfl⟩ h.wellFormed, ?_, ?_⟩
    · rintro g ⟨⟩
      exact ⟨found, h.lines, h.grammar⟩
    · rintro e ⟨⟩
  · refine ⟨iff_of_false (by rintro ⟨g, ⟨⟩⟩) h.not_wellFormed, ?_, ?_⟩
    · rintro g ⟨⟩
    · rintro e ⟨⟩
      exact h

/-- Bars and dashes are left sides too, and blank lines are passed over. -/
example : ((Grammar.read "| -> a | b\n\n --> |ε\n | $".toList).map fun g =>
    g.rules.map fun r => (r.left.char, r.right)) =
    .ok [('|', ['a']), ('|', ['b']), ('-', []), ('-', []), ('-', ['$'])] := by
  rfl

end PredictiveParsing
