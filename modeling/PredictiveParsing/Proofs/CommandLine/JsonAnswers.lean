import Mathlib
import PredictiveParsing.Proofs.Answer
import PredictiveParsing.Proofs.CommandLine.Arguments

/-!
# Answers on the command line

A call that asks for trees or for the table as JSON prints the answers that there are for single
inputs, each on a line of its own. A call with many inputs makes one parser and stops at the first
input that fails, with the message of the answer for this input.

* `ofItems_map_ok`, `ofItems_append_error`: texts that are printed up to the first error;
* `Layout.ofTrees`, `Layout.ofTable`: the calls;
* `decode_toUTF8`, `respond_eq`: the grammar is read from standard input;
* `Outcome.ShowsTrees`: what the call for trees leaves behind; `showsTrees_answer`;
* **`respond_json`**: the two calls and the answers.
-/

namespace PredictiveParsing.CommandLine

variable {g x message : Text} {inputs : List Text} {p : Parser}

/-! ## Printing up to the first error -/

/-- Texts, each on a line of its own. -/
def printed (texts : List Text) : Text := texts.flatMap fun t => t ++ ['\n']

theorem ofItems_map_ok (texts : List Text) :
    Outcome.ofItems (texts.map .ok) = ⟨0, printed texts, []⟩ := by
  induction texts with
  | nil => rfl
  | cons t texts ih =>
    rw [List.map_cons, Outcome.ofItems, ih]
    simp [printed]

theorem ofItems_append_error (texts : List Text) (e : Error) (items : List (Except Error Text)) :
    Outcome.ofItems (texts.map .ok ++ .error e :: items) =
      { Outcome.failure e.message with stdout := printed texts } := by
  induction texts with
  | nil => rfl
  | cons t texts ih =>
    rw [List.map_cons, List.cons_append, Outcome.ofItems, ih]
    simp [printed]

/-! ## The calls -/

/-- The call for the trees of some inputs as JSON. -/
def Layout.ofTrees (inputs : List Text) : Layout := ⟨[.trees], .json :: inputs.map .input, none⟩

/-- The call for the table as JSON. -/
def Layout.ofTable : Layout := ⟨[.table], [.json], none⟩

theorem Layout.words_ofTrees (inputs : List Text) : (Layout.ofTrees inputs).words =
    "tree".toList :: "-j".toList :: inputs.flatMap fun x => ["-i".toList, x] := by
  simp [Layout.words, Layout.tail, Layout.ofTrees, Output.word, Switch.words, List.flatMap_map]

theorem Layout.isGreedy_of_json {outputs : List Output} {switches : List Switch}
    (h : outputs ≠ []) : (⟨outputs, .json :: switches, none⟩ : Layout).IsGreedy where
  outputs_ne_nil := h
  outputs_longest output hpre := by
    have hword : output.word = "-j".toList := (List.cons_prefix_cons.1 hpre).1
    cases output <;> exact absurd hword (by decide)
  switches_longest s hpre := by
    cases s <;> exact absurd hpre.length_le (by simp [Switch.words])
  file_notMem _ h := by cases h

theorem ofArgs?_ofTrees (inputs : List Text) :
    Options.ofArgs? (Layout.ofTrees inputs).words = some ⟨[.trees], .json, inputs, none⟩ := by
  have hgreedy : (Layout.ofTrees inputs).IsGreedy := Layout.isGreedy_of_json (by simp)
  have hformats : (inputs.map Switch.input).filterMap Switch.format? = [] := by
    rw [List.filterMap_map]
    exact List.filterMap_eq_nil_iff.2 fun x _ => rfl
  have hinputs : (inputs.map Switch.input).filterMap Switch.input? = inputs := by
    rw [List.filterMap_map]
    exact List.filterMap_some
  rw [hgreedy.ofArgs?_words, Layout.options, Layout.ofTrees]
  simp only [List.filterMap_cons, Switch.format?, Switch.input?, hformats, hinputs]
  rfl

theorem ofArgs?_ofTable :
    Options.ofArgs? Layout.ofTable.words = some ⟨[.table], .json, [], none⟩ := by
  have hgreedy : Layout.ofTable.IsGreedy := Layout.isGreedy_of_json (by simp)
  rw [hgreedy.ofArgs?_words]
  rfl

/-! ## The grammar on standard input -/

theorem decode_toUTF8 (t : Text) : decode (String.ofList t).toUTF8 = .ok t := by
  have hread : String.fromUTF8? (String.ofList t).toUTF8 = some (String.ofList t) :=
    dif_pos (String.ofList t).isValidUTF8
  rw [decode, hread]
  exact congrArg Except.ok String.toList_ofList

section

variable {m : Type → Type} [Monad m] [LawfulMonad m]
  {fetch : Option Text → m (Except SourceFault Text)}

theorem respond_eq {l : Layout} {o : Options} (h : Options.ofArgs? l.words = some o)
    (hfile : o.file? = none) (hfetch : fetch none = pure (decode (String.ofList g).toUTF8)) :
    respond l.words fetch = pure (o.answer (.ok g)) := by
  simp only [respond, h, hfile, hfetch, decode_toUTF8, pure_bind]

end

/-! ## The trees of many inputs -/

theorem map_json_of_none (hp : Parser.ofText g = .ok p)
    (h : Answer.error? (Answer.tree g x) = none) :
    (p.parse x).map Forest.json = .ok (Answer.tree g x) := by
  obtain ⟨f, hf⟩ := (Answer.reports_tree g x).error?_eq_none_iff.1 h
  rw [hp] at hf
  have hparse : p.parse x = .ok f := hf
  rw [Answer.tree_of_ok hp, hparse]
  rfl

theorem exists_map_json_of_some (hp : Parser.ofText g = .ok p)
    (h : Answer.error? (Answer.tree g x) = some message) :
    ∃ e, (p.parse x).map Forest.json = .error e ∧ e.message = message := by
  obtain ⟨e, he, hmessage⟩ := (Answer.reports_tree g x).error?_eq_some_iff.1 h
  rw [hp] at he
  have hparse : p.parse x = .error e := he
  exact ⟨e, by rw [hparse]; rfl, hmessage⟩

/-- What a call for the trees of some inputs leaves behind, in terms of the answers for single
inputs. If there is no parser, nothing is printed but the message that all answers have. Otherwise
the answers before the first failure are printed, and then the message of this one, if there is
one. -/
structure Outcome.ShowsTrees (g : Text) (inputs : List Text) (o : Outcome) : Prop where
  of_refused : ∀ e, Parser.ofText g = .error e → ∃ message,
    (∀ x, Answer.error? (Answer.tree g x) = some message) ∧ o = .failure message
  of_first : ∀ before x after message, inputs = before ++ x :: after →
    (∀ y ∈ before, Answer.error? (Answer.tree g y) = none) →
    Answer.error? (Answer.tree g x) = some message →
      o = { Outcome.failure message with stdout := printed (before.map (Answer.tree g)) }
  of_all : ∀ p, Parser.ofText g = .ok p →
    (∀ x ∈ inputs, Answer.error? (Answer.tree g x) = none) →
      o = ⟨0, printed (inputs.map (Answer.tree g)), []⟩

theorem answer_trees (hp : Parser.ofText g = .ok p) (inputs : List Text) :
    (⟨[.trees], .json, inputs, none⟩ : Options).answer (.ok g) =
      .ofItems (inputs.map fun x => (p.parse x).map Forest.json) := by
  simp only [Options.answer, hp, List.flatMap_singleton, Options.items]
  rfl

theorem map_json_of_forall (hp : Parser.ofText g = .ok p)
    (h : ∀ x ∈ inputs, Answer.error? (Answer.tree g x) = none) :
    (inputs.map fun x => (p.parse x).map Forest.json) =
      (inputs.map (Answer.tree g)).map .ok := by
  rw [List.map_map]
  exact List.map_congr_left fun x hx => map_json_of_none hp (h x hx)

theorem showsTrees_answer (g : Text) (inputs : List Text) :
    Outcome.ShowsTrees g inputs ((⟨[.trees], .json, inputs, none⟩ : Options).answer (.ok g)) := by
  cases hp : Parser.ofText g with
  | error e =>
    have hall : ∀ x, Answer.error? (Answer.tree g x) = some e.message := fun x =>
      (Answer.reports_tree g x).error?_of_error (by rw [hp]; rfl)
    have hanswer : (⟨[.trees], .json, inputs, none⟩ : Options).answer (.ok g) =
        .failure e.message := by
      simp only [Options.answer, hp]
    rw [hanswer]
    refine ⟨fun e' he => ?_, fun before x after message _ hbefore hx => ?_, fun p hp' => ?_⟩
    · exact ⟨e.message, hall, rfl⟩
    · -- All answers are failures, so that the first one is that for the first input.
      cases before with
      | nil =>
        obtain rfl := Option.some.inj ((hall x).symm.trans hx)
        rfl
      | cons y before =>
        have hy := hbefore y List.mem_cons_self
        rw [hall y] at hy
        cases hy
    · cases hp.symm.trans hp'
  | ok p =>
    rw [answer_trees hp]
    refine ⟨fun e he => ?_, fun before x after message hinputs hbefore hx => ?_, fun _ _ hall => ?_⟩
    · cases hp.symm.trans he
    · obtain ⟨e, he, rfl⟩ := exists_map_json_of_some hp hx
      rw [hinputs, List.map_append, List.map_cons, map_json_of_forall hp hbefore, he]
      exact ofItems_append_error _ e _
    · rw [map_json_of_forall hp hall]
      exact ofItems_map_ok _

/-! ## The table -/

/-- What a call for the table leaves behind, in terms of the answer. -/
structure Outcome.ShowsTable (g : Text) (o : Outcome) : Prop where
  of_some : ∀ message, Answer.error? (Answer.table g) = some message → o = .failure message
  of_none : Answer.error? (Answer.table g) = none → o = ⟨0, Answer.table g ++ ['\n'], []⟩

theorem Outcome.ShowsTable.stdout_eq_iff {o : Outcome} (h : o.ShowsTable g) :
    o.stdout = Answer.table g ++ ['\n'] ↔ Answer.error? (Answer.table g) = none := by
  cases hanswer : Answer.error? (Answer.table g) with
  | none => simp [h.of_none hanswer]
  | some message => simp [h.of_some message hanswer, Outcome.failure]

theorem showsTable_answer (g : Text) :
    Outcome.ShowsTable g ((⟨[.table], .json, [], none⟩ : Options).answer (.ok g)) := by
  refine ⟨fun message h => ?_, fun h => ?_⟩
  · obtain ⟨e, he, rfl⟩ := (Answer.reports_table g).error?_eq_some_iff.1 h
    simp only [Options.answer, he]
  · obtain ⟨p, hp⟩ := (Answer.reports_table g).error?_eq_none_iff.1 h
    obtain ⟨_, hcompile⟩ := Answer.compile_of_ofText hp
    simp only [Options.answer, hp, Answer.table, Answer.tableValue_eq hcompile]
    rfl

/-! ## The two calls -/

/-- **Calls for JSON and single answers agree.** With a grammar text on standard input, the call for
trees prints the answers for its inputs up to the first failure, and the call for the table prints
the answer with the table, if there is one. Every answer is an object, and has a field `error` iff
there is no result. -/
theorem respond_json {m : Type → Type} [Monad m] [LawfulMonad m]
    {fetch : Option Text → m (Except SourceFault Text)} (g : Text) (inputs : List Text)
    (hfetch : fetch none = pure (decode (String.ofList g).toUTF8)) :
    (∃ o, respond ("tree".toList :: "-j".toList :: inputs.flatMap fun x => ["-i".toList, x]) fetch =
      pure o ∧ o.ShowsTrees g inputs) ∧
    (∃ o, respond ["ll1".toList, "-j".toList] fetch = pure o ∧ o.ShowsTable g ∧
      (o.stdout = Answer.table g ++ ['\n'] ↔ Answer.error? (Answer.table g) = none)) ∧
    (∀ x, Answer.Reports ((Parser.ofText g).bind (·.parse x)) (Answer.tree g x)) ∧
    Answer.Reports (Parser.ofText g) (Answer.table g) := by
  have htrees := respond_eq (ofArgs?_ofTrees inputs) rfl hfetch
  have htable := respond_eq ofArgs?_ofTable rfl hfetch
  rw [Layout.words_ofTrees] at htrees
  have hshows := showsTable_answer g
  exact ⟨⟨_, htrees, showsTrees_answer g inputs⟩, ⟨_, htable, hshows, hshows.stdout_eq_iff⟩,
    Answer.reports_tree g, Answer.reports_table g⟩

/-- A text on standard input, and no files. -/
def piped (t : Text) : Option Text → Id (Except SourceFault Text)
  | none => pure (decode (String.ofList t).toUTF8)
  | some _ => pure (.error .missing)

/-- The second of three inputs is incomplete; the third one is not looked at. -/
theorem respond_json_incomplete :
    respond ["tree".toList, "-j".toList, "-i".toList, ['b'], "-i".toList, ['a'], "-i".toList,
        ['b']] (piped "S -> a S | b".toList) =
      pure ⟨1, Answer.tree "S -> a S | b".toList ['b'] ++ ['\n'],
        "error: failed to find grammar for transition 'S => $'\n".toList⟩ := by
  have hpiped : piped "S -> a S | b".toList none =
      pure (decode (String.ofList "S -> a S | b".toList).toUTF8) := rfl
  obtain ⟨⟨o, ho, hshows⟩, -⟩ := respond_json _ [['b'], ['a'], ['b']] hpiped
  have hfirst := hshows.of_first [['b']] ['a'] [['b']]
    "failed to find grammar for transition 'S => $'".toList rfl (by decide +kernel)
    (by decide +kernel)
  exact ho.trans (congrArg pure (hfirst.trans rfl))

end PredictiveParsing.CommandLine
