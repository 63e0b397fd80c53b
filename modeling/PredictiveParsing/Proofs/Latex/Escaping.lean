import Mathlib
import PredictiveParsing.Latex
import PredictiveParsing.Proofs.Text.Pieces

/-!
# Escaped text

An escaped text can be read in one way only, also when the letter `ε` has become a command: no code
word begins with another one, and the empty group behind a hyphen is never the beginning of what
follows. Whatever is escaped, it cannot be mistaken for the end of a row, for a rule or for the gap
between two cells.

* `codeWord`, `hyphenGroup`: how a character is written; `escape_cons`;
* `eq_of_prefix_codeWord`, **`nameEpsilon_escape_injective`**: reading escaped text;
* `Avoids`: a character never stands right behind another one;
* `NoBreak`, `IsEntry`: texts for a row and for a cell;
* **`isEntry_escape`**, **`isEntry_nameEpsilon_escape`**: escaped text is for a cell;
* `unbroken_gap`, `unbroken_break`, `unbroken_rule`: no separator begins in such texts.
-/

namespace PredictiveParsing.Latex

variable {a b c d : Char} {s t u v separator piece : Text} {pieces : List Text}

/-! ## Code words -/

/-- How a character is written where the letter `ε` is a command. -/
def codeWord (c : Char) : Text := nameEpsilon (escapeChar c)

/-- The empty group between two hyphens, the first of which is the given one. -/
def hyphenGroup (c : Char) (t : Text) : Text :=
  if c = '-' ∧ t.head? = some '-' then braced [] else []

theorem escape_cons (c : Char) (t : Text) :
    escape (c :: t) = escapeChar c ++ (hyphenGroup c t ++ escape t) := by
  by_cases h : c = '-' ∧ t.head? = some '-'
  · obtain ⟨rfl, ht⟩ := h
    obtain ⟨t, rfl⟩ := List.head?_eq_some_iff.1 ht
    rfl
  · rw [hyphenGroup, if_neg h, List.nil_append, escape]
    rintro t rfl rfl
    exact h ⟨rfl, rfl⟩

theorem nameEpsilon_append (u v : Text) :
    nameEpsilon (u ++ v) = nameEpsilon u ++ nameEpsilon v := List.flatMap_append

theorem nameEpsilon_hyphenGroup (c : Char) (t : Text) :
    nameEpsilon (hyphenGroup c t) = hyphenGroup c t := by
  unfold hyphenGroup
  split <;> rfl

theorem nameEpsilon_escape_cons (c : Char) (t : Text) : nameEpsilon (escape (c :: t)) =
    codeWord c ++ (hyphenGroup c t ++ nameEpsilon (escape t)) := by
  rw [escape_cons, nameEpsilon_append, nameEpsilon_append, nameEpsilon_hyphenGroup, codeWord]

/-- The characters that are escaped or named by a command, and the hyphen. Any other character stands
as it is. -/
def special : Text := "&%$#_\x7b\x7d[]~^<>!\\ε-".toList

theorem escapeChar_of_notMem (h : c ∉ special) : escapeChar c = [c] := by
  unfold escapeChar
  split <;> first | rfl | exact absurd (by decide) h

theorem codeWord_of_notMem (h : c ∉ special) : codeWord c = [c] := by
  have hne : c ≠ 'ε' := by
    rintro rfl
    exact h (by decide)
  rw [codeWord, escapeChar_of_notMem h, nameEpsilon, List.flatMap_singleton, if_neg hne]

/-- The code words of the special characters. -/
def codeWords : List (Char × Text) := special.map fun c => (c, codeWord c)

theorem mem_codeWords (h : c ∈ special) : (c, codeWord c) ∈ codeWords :=
  List.mem_map.2 ⟨c, h, rfl⟩

theorem codeWord_ne_nil (c : Char) : codeWord c ≠ [] := by
  by_cases hc : c ∈ special
  · have hall : ∀ e ∈ codeWords, e.2 ≠ [] := by decide
    exact hall _ (mem_codeWords hc)
  · rw [codeWord_of_notMem hc]
    exact List.cons_ne_nil _ _

/-! ## Reading escaped text -/

theorem head?_codeWord (h : (codeWord c).head? = some d) : d ∈ special ↔ c ∈ special := by
  by_cases hc : c ∈ special
  · have hall : ∀ e ∈ codeWords, e.2.headD e.1 ∈ special := by decide
    have hmem := hall _ (mem_codeWords hc)
    rw [List.headD_eq_head?_getD, h, Option.getD_some] at hmem
    exact iff_of_true hmem hc
  · rw [codeWord_of_notMem hc] at h
    rw [Option.some.inj h]

theorem eq_of_prefix_codeWord (h : codeWord c <+: codeWord d) : c = d := by
  obtain ⟨x, w, hx⟩ := List.exists_cons_of_ne_nil (codeWord_ne_nil c)
  have hc : (codeWord c).head? = some x := by rw [hx, List.head?_cons]
  have hd : (codeWord d).head? = some x := by
    obtain ⟨rest, hrest⟩ := h
    rw [← hrest, hx, List.cons_append, List.head?_cons]
  have hspecial : c ∈ special ↔ d ∈ special := (head?_codeWord hc).symm.trans (head?_codeWord hd)
  by_cases hmem : c ∈ special
  · have hall : ∀ e ∈ codeWords, ∀ e' ∈ codeWords, e.2 <+: e'.2 → e.1 = e'.1 := by decide +kernel
    exact hall _ (mem_codeWords hmem) _ (mem_codeWords (hspecial.1 hmem)) h
  · rw [codeWord_of_notMem hmem, codeWord_of_notMem fun hmem' => hmem (hspecial.2 hmem')] at h
    simpa using h

theorem not_prefix_nameEpsilon_escape (t : Text) : ¬ braced [] <+: nameEpsilon (escape t) := by
  cases t with
  | nil => decide
  | cons c t =>
    rw [nameEpsilon_escape_cons]
    intro h
    -- Of an empty group and the first code word, one begins with the other.
    have hcases := List.prefix_or_prefix_of_prefix h (List.prefix_append _ _)
    by_cases hc : c ∈ special
    · have hall : ∀ e ∈ codeWords, ¬ (braced [] <+: e.2 ∨ e.2 <+: braced []) := by decide +kernel
      exact hall _ (mem_codeWords hc) hcases
    · rw [codeWord_of_notMem hc] at hcases
      rcases hcases with hlong | hshort
      · exact absurd hlong.length_le (by simp [braced])
      · obtain rfl : c = '{' := by simpa [braced] using hshort
        exact hc (by decide)

theorem eq_of_hyphenGroup_append
    (h : hyphenGroup c s ++ nameEpsilon (escape s) = hyphenGroup c t ++ nameEpsilon (escape t)) :
    nameEpsilon (escape s) = nameEpsilon (escape t) := by
  unfold hyphenGroup at h
  split_ifs at h
  · exact List.append_cancel_left h
  · exact absurd ⟨_, h⟩ (not_prefix_nameEpsilon_escape t)
  · exact absurd ⟨_, h.symm⟩ (not_prefix_nameEpsilon_escape s)
  · exact h

/-- **Different texts look different** when they are escaped and the letter `ε` is a command. -/
theorem nameEpsilon_escape_injective :
    Function.Injective fun t => nameEpsilon (escape t) := by
  intro s t h
  dsimp only at h
  induction s generalizing t with
  | nil =>
    cases t with
    | nil => rfl
    | cons d t =>
      rw [nameEpsilon_escape_cons] at h
      exact absurd (List.append_eq_nil_iff.1 h.symm).1 (codeWord_ne_nil d)
  | cons c s ih =>
    cases t with
    | nil =>
      rw [nameEpsilon_escape_cons] at h
      exact absurd (List.append_eq_nil_iff.1 h).1 (codeWord_ne_nil c)
    | cons d t =>
      rw [nameEpsilon_escape_cons, nameEpsilon_escape_cons] at h
      obtain rfl : c = d := by
        have hprefix := List.prefix_append (codeWord c) (hyphenGroup c s ++ nameEpsilon (escape s))
        rw [h] at hprefix
        rcases List.prefix_or_prefix_of_prefix hprefix (List.prefix_append _ _) with hcd | hdc
        · exact eq_of_prefix_codeWord hcd
        · exact (eq_of_prefix_codeWord hdc).symm
      rw [ih (eq_of_hyphenGroup_append (List.append_cancel_left h))]

/-! ## What escaped text avoids -/

/-- In the text `b` never stands right behind `a`. -/
def Avoids (a b : Char) (t : Text) : Prop := ¬ [a, b] <:+: t

instance (a b : Char) (t : Text) : Decidable (Avoids a b t) :=
  inferInstanceAs (Decidable (¬ _))

theorem Avoids.append (hu : Avoids a b u) (hv : Avoids a b v)
    (h : u.getLast? = some a → v.head? ≠ some b) : Avoids a b (u ++ v) := by
  rw [Avoids, List.infix_append_iff]
  rintro (hin | hin | ⟨x, y, hxy, hx, hy⟩)
  · exact hu hin
  · exact hv hin
  · rcases List.cons_eq_append_iff.1 hxy with ⟨-, rfl⟩ | ⟨x', rfl, hxy'⟩
    · exact hv hy.isInfix
    · rcases List.cons_eq_append_iff.1 hxy' with ⟨rfl, rfl⟩ | ⟨x'', rfl, hxy''⟩
      · -- The two characters stand at the end of the first text and the beginning of the second.
        obtain ⟨u, rfl⟩ := hx
        obtain ⟨v, rfl⟩ := hy
        exact h (by simp) rfl
      · obtain ⟨rfl, rfl⟩ := List.nil_eq_append_iff.1 hxy''
        exact hu hx.isInfix

/-- A text that neither breaks a row nor begins a rule: no backslash stands in front of a backslash
or an `h`, or at the end. -/
structure NoBreak (t : Text) : Prop where
  breaks : Avoids '\\' '\\' t
  rules : Avoids '\\' 'h' t
  getLast?_ne : t.getLast? ≠ some '\\'

/-- A text for a cell: moreover, it does not begin with an `&`, and no space stands in front of
one. -/
structure IsEntry (t : Text) : Prop extends NoBreak t where
  gaps : Avoids ' ' '&' t
  head?_ne : t.head? ≠ some '&'

instance (t : Text) : Decidable (NoBreak t) :=
  decidable_of_iff (Avoids '\\' '\\' t ∧ Avoids '\\' 'h' t ∧ t.getLast? ≠ some '\\')
    ⟨fun ⟨hb, hr, hl⟩ => ⟨hb, hr, hl⟩, fun h => ⟨h.breaks, h.rules, h.getLast?_ne⟩⟩

instance (t : Text) : Decidable (IsEntry t) :=
  decidable_of_iff (NoBreak t ∧ Avoids ' ' '&' t ∧ t.head? ≠ some '&')
    ⟨fun ⟨hn, hg, hh⟩ => ⟨hn, hg, hh⟩, fun h => ⟨h.toNoBreak, h.gaps, h.head?_ne⟩⟩

theorem NoBreak.append (hu : NoBreak u) (hv : NoBreak v) : NoBreak (u ++ v) where
  breaks := hu.breaks.append hv.breaks fun h => absurd h hu.getLast?_ne
  rules := hu.rules.append hv.rules fun h => absurd h hu.getLast?_ne
  getLast?_ne := by
    rw [List.getLast?_append]
    cases hlast : v.getLast? with
    | none => simpa using hu.getLast?_ne
    | some c => simpa [hlast] using hv.getLast?_ne

theorem noBreak_nil : NoBreak [] := by decide

theorem NoBreak.flatten (h : ∀ piece ∈ pieces, NoBreak piece) : NoBreak pieces.flatten := by
  induction pieces with
  | nil => exact noBreak_nil
  | cons piece pieces ih =>
    rw [List.flatten_cons]
    exact (h piece List.mem_cons_self).append (ih fun piece hmem =>
      h piece (List.mem_cons_of_mem _ hmem))

theorem NoBreak.intercalate (hs : NoBreak separator) (h : ∀ piece ∈ pieces, NoBreak piece) :
    NoBreak (separator.intercalate pieces) := by
  induction pieces with
  | nil => exact noBreak_nil
  | cons piece pieces ih =>
    rw [List.forall_mem_cons] at h
    cases pieces with
    | nil => exact List.intercalate_singleton ▸ h.1
    | cons next pieces =>
      rw [List.intercalate_cons_cons]
      exact (h.1.append hs).append (ih h.2)

theorem NoBreak.braced (h : NoBreak t) : NoBreak (braced t) := by
  have hopen : NoBreak ['{'] := by decide
  exact (hopen.append h).append (by decide)

theorem IsEntry.append (hu : IsEntry u) (hv : IsEntry v) : IsEntry (u ++ v) where
  toNoBreak := hu.toNoBreak.append hv.toNoBreak
  gaps := hu.gaps.append hv.gaps fun _ => hv.head?_ne
  head?_ne := by
    rw [List.head?_append]
    cases hhead : u.head? with
    | none => simpa using hv.head?_ne
    | some c => simpa [hhead] using hu.head?_ne

theorem isEntry_singleton (h : c ∉ special) : IsEntry [c] := by
  have hbackslash : c ≠ '\\' := by
    rintro rfl
    exact h (by decide)
  have hand : c ≠ '&' := by
    rintro rfl
    exact h (by decide)
  have hshort : ∀ a b, Avoids a b [c] := fun a b hin => absurd hin.length_le (by simp)
  exact ⟨⟨hshort _ _, hshort _ _, by simpa using hbackslash⟩, hshort _ _, by simpa using hand⟩

theorem isEntry_escapeChar (c : Char) : IsEntry (escapeChar c) := by
  by_cases hc : c ∈ special
  · have hall : ∀ w ∈ special.map escapeChar, IsEntry w := by decide +kernel
    exact hall _ (List.mem_map_of_mem hc)
  · rw [escapeChar_of_notMem hc]
    exact isEntry_singleton hc

theorem isEntry_codeWord (c : Char) : IsEntry (codeWord c) := by
  by_cases hc : c ∈ special
  · have hall : ∀ e ∈ codeWords, IsEntry e.2 := by decide +kernel
    exact hall _ (mem_codeWords hc)
  · rw [codeWord_of_notMem hc]
    exact isEntry_singleton hc

theorem isEntry_hyphenGroup (c : Char) (t : Text) : IsEntry (hyphenGroup c t) := by
  unfold hyphenGroup
  split <;> decide

/-- **Escaped text** can stand in a cell. -/
theorem isEntry_escape (t : Text) : IsEntry (escape t) := by
  induction t with
  | nil => decide
  | cons c t ih =>
    rw [escape_cons]
    exact (isEntry_escapeChar c).append ((isEntry_hyphenGroup c t).append ih)

theorem isEntry_nameEpsilon_escape (t : Text) : IsEntry (nameEpsilon (escape t)) := by
  induction t with
  | nil => decide
  | cons c t ih =>
    rw [nameEpsilon_escape_cons]
    exact (isEntry_codeWord c).append ((isEntry_hyphenGroup c t).append ih)

theorem escape_ne_nil (h : t ≠ []) : escape t ≠ [] := by
  obtain ⟨c, t, rfl⟩ := List.exists_cons_of_ne_nil h
  rw [escape_cons]
  intro hnil
  have hword : escapeChar c = [] := (List.append_eq_nil_iff.1 hnil).1
  exact codeWord_ne_nil c (by rw [codeWord, hword]; rfl)

/-! ## Cutting at breaks, rules and gaps -/

theorem IsEntry.unbroken_gap (h : IsEntry t) : Text.Unbroken " & ".toList t :=
  have hand : '&' ∉ [' '] := by decide
  Text.unbroken_of_notMem hand h.gaps

theorem NoBreak.unbroken_break (h : NoBreak t) : Text.Unbroken "\\\\\n".toList t :=
  have hnewline : '\n' ∉ ['\\', '\\'] := by decide
  Text.unbroken_of_notMem hnewline fun hin => h.breaks (List.IsInfix.trans ⟨[], ['\n'], rfl⟩ hin)

theorem unbroken_rule (h : Avoids '\\' 'h' t) : Text.Unbroken "\\hline\n".toList t :=
  have hbackslash : '\\' ∉ "hline\n".toList := by decide
  Text.unbroken_of_head_notMem hbackslash fun hin =>
    h (List.IsInfix.trans ⟨[], "line\n".toList, rfl⟩ hin)

end PredictiveParsing.Latex
