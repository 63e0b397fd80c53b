import Mathlib
import PredictiveParsing.CommandLine

/-!
# The arguments of a call

A call that is answered has three parts: a block of words for outputs, a block of options, and at
most one name of a file. Each block is as long as possible, so that one and the same text can be an
output, an option, the input of an option or the name of a file, by its place.

* `Output.word`, `Switch`, `Layout`: the parts of a call, and how they are written;
* `Layout.IsGreedy`: each block is as long as possible;
* `takeOutputs_eq_iff`, `read_flatMap`, `exists_switches`: reading a block;
* `ofPositions`: reading by positions, with a fault where a position is out of range;
  **`ofPositions_eq`**: there is none;
* **`ofArgs?_eq_some_iff`**: the calls that are answered.
-/

namespace PredictiveParsing.CommandLine

variable {args rest : List Text} {arg : Text} {outputs : List Output} {output : Output}
  {o o' : Options} {i : ℕ}

/-! ## The parts of a call -/

/-- The word for an output. -/
def Output.word : Output → Text
  | productions => "prod".toList
  | facts => "nff".toList
  | table => "ll1".toList
  | trees => "tree".toList

theorem Output.ofWord?_word (output : Output) : Output.ofWord? output.word = some output := by
  cases output <;> rfl

theorem Output.ofWord?_eq_some_iff : Output.ofWord? arg = some output ↔ output.word = arg := by
  refine ⟨fun h => ?_, fun h => h ▸ output.ofWord?_word⟩
  unfold Output.ofWord? at h
  split at h
  · next harg => cases h; exact harg.symm
  split at h
  · next harg => cases h; exact harg.symm
  split at h
  · next harg => cases h; exact harg.symm
  split at h
  · next harg => cases h; exact harg.symm
  · cases h

/-- An option, with its input if it has one. -/
inductive Switch where
  | latex
  | json
  | input (text : Text)

namespace Switch

/-- The arguments that an option is written with. -/
def words : Switch → List Text
  | latex => ["-l".toList]
  | json => ["-j".toList]
  | input text => ["-i".toList, text]

/-- The format that an option asks for. -/
def format? : Switch → Option Format
  | latex => some .latex
  | json => some .json
  | input _ => none

/-- The input that an option gives. -/
def input? : Switch → Option Text
  | input text => some text
  | _ => none

end Switch

/-- A call in its three parts. -/
structure Layout where
  outputs : List Output
  switches : List Switch
  file? : Option Text

namespace Layout

variable (l : Layout)

/-- The arguments behind the outputs. -/
def tail : List Text := l.switches.flatMap Switch.words ++ l.file?.toList

/-- The arguments that a call is written with. -/
def words : List Text := l.outputs.map Output.word ++ l.tail

/-- What a call asks for: the outputs and the inputs in order, the last format that is named, and
the file. -/
def options : Options where
  outputs := l.outputs
  format := (l.switches.filterMap Switch.format?).getLast?.getD .plain
  inputs := l.switches.filterMap Switch.input?
  file? := l.file?

/-- Some output is asked for, no block can be made longer, and what stands in the place of the file
does not ask for help and is no option without its input. -/
structure IsGreedy (l : Layout) : Prop where
  outputs_ne_nil : l.outputs ≠ []
  outputs_longest : ∀ output : Output, ¬ [output.word] <+: l.tail
  switches_longest : ∀ s : Switch, ¬ s.words <+: l.file?.toList
  file_notMem : ∀ file ∈ l.file?, file ∉ ["-h".toList, "--help".toList, "-i".toList]

end Layout

/-! ## Reading the outputs -/

theorem takeOutputs_map (h : ∀ output : Output, ¬ [output.word] <+: rest) :
    takeOutputs (outputs.map Output.word ++ rest) = (outputs, rest) := by
  induction outputs with
  | nil =>
    cases rest with
    | nil => rfl
    | cons arg rest =>
      have harg : Output.ofWord? arg = none := by
        cases hword : Output.ofWord? arg with
        | none => rfl
        | some output => exact absurd (by simp [Output.ofWord?_eq_some_iff.1 hword]) (h output)
      simp [takeOutputs, harg]
  | cons output outputs ih => simp [takeOutputs, output.ofWord?_word, ih]

/-- **The outputs** are as many of the first arguments as possible. -/
theorem takeOutputs_eq_iff : takeOutputs args = (outputs, rest) ↔
    args = outputs.map Output.word ++ rest ∧ ∀ output : Output, ¬ [output.word] <+: rest := by
  refine ⟨fun h => ?_, fun ⟨hargs, hrest⟩ => hargs ▸ takeOutputs_map hrest⟩
  induction args generalizing outputs with
  | nil =>
    cases h
    simp
  | cons arg args ih =>
    rw [takeOutputs] at h
    cases hword : Output.ofWord? arg with
    | some output =>
      rw [hword] at h
      cases h
      obtain ⟨hargs, hrest⟩ := ih rfl
      rw [List.map_cons, List.cons_append, ← hargs, Output.ofWord?_eq_some_iff.1 hword]
      exact ⟨rfl, hrest⟩
    | none =>
      rw [hword] at h
      cases h
      refine ⟨rfl, fun output hpre => ?_⟩
      obtain ⟨hhead, -⟩ := List.cons_prefix_cons.1 hpre
      rw [← hhead, output.ofWord?_word] at hword
      cases hword

/-! ## Reading the options -/

namespace Options

/-- What is asked for with one more option. -/
def set (o : Options) : Switch → Options
  | .latex => { o with format := .latex }
  | .json => { o with format := .json }
  | .input text => { o with inputs := o.inputs ++ [text] }

theorem foldl_set (switches : List Switch) (o : Options) : switches.foldl set o =
    { o with
      format := (switches.filterMap Switch.format?).getLast?.getD o.format
      inputs := o.inputs ++ switches.filterMap Switch.input? } := by
  induction switches generalizing o with
  | nil => simp
  | cons s switches ih =>
    rw [List.foldl_cons, ih]
    cases s with
    | latex => simp [set, Switch.format?, Switch.input?, List.filterMap_cons, List.getLast?_cons]
    | json => simp [set, Switch.format?, Switch.input?, List.filterMap_cons, List.getLast?_cons]
    | input text => simp [set, Switch.format?, Switch.input?, List.filterMap_cons]

theorem read_words (s : Switch) (rest : List Text) :
    read o (s.words ++ rest) = read (o.set s) rest := by
  rw [read.eq_def]
  cases s with
  | latex => exact if_pos rfl
  | json => exact (if_neg (by decide)).trans (if_pos rfl)
  | input text => exact (if_neg (by decide)).trans ((if_neg (by decide)).trans (if_pos rfl))

theorem read_flatMap (switches : List Switch) (rest : List Text) :
    read o (switches.flatMap Switch.words ++ rest) = read (switches.foldl set o) rest := by
  induction switches generalizing o with
  | nil => rfl
  | cons s switches ih => rw [List.flatMap_cons, List.append_assoc, read_words, ih, List.foldl_cons]

theorem read_toList {file? : Option Text} (ho : o.file? = none)
    (hlongest : ∀ s : Switch, ¬ s.words <+: file?.toList)
    (hfile : ∀ file ∈ file?, file ∉ ["-h".toList, "--help".toList, "-i".toList]) :
    read o file?.toList = some { o with file? } := by
  cases file? with
  | none =>
    obtain ⟨outputs, format, inputs, file?⟩ := o
    obtain rfl : file? = none := ho
    rfl
  | some file =>
    have hlatex : file ≠ "-l".toList := by
      rintro rfl
      exact hlongest .latex (List.prefix_refl _)
    have hjson : file ≠ "-j".toList := by
      rintro rfl
      exact hlongest .json (List.prefix_refl _)
    have hfile := hfile file rfl
    simp only [List.mem_cons, List.not_mem_nil, or_false, not_or] at hfile
    obtain ⟨hshort, hlong, hinput⟩ := hfile
    rw [Option.toList_some, read, if_neg hlatex, if_neg hjson, if_neg hinput,
      if_neg (not_or.2 ⟨hshort, hlong⟩), if_pos rfl]

theorem exists_switches (ho : o.file? = none) (h : read o args = some o') :
    ∃ (switches : List Switch) (file? : Option Text),
      args = switches.flatMap Switch.words ++ file?.toList ∧
      (∀ s : Switch, ¬ s.words <+: file?.toList) ∧
      (∀ file ∈ file?, file ∉ ["-h".toList, "--help".toList, "-i".toList]) ∧
      o' = { switches.foldl set o with file? } := by
  fun_induction read o args with
  | case1 o =>
    refine ⟨[], none, rfl, fun s => by cases s <;> simp [Switch.words], by simp, ?_⟩
    rw [← Option.some.inj h, List.foldl_nil, ← ho]
  | case2 o args ih =>
    obtain ⟨switches, file?, rfl, hlongest, hfile, rfl⟩ := ih ho h
    exact ⟨.latex :: switches, file?, rfl, hlongest, hfile, rfl⟩
  | case3 o args _ ih =>
    obtain ⟨switches, file?, rfl, hlongest, hfile, rfl⟩ := ih ho h
    exact ⟨.json :: switches, file?, rfl, hlongest, hfile, rfl⟩
  | case4 o input args _ _ ih =>
    obtain ⟨switches, file?, rfl, hlongest, hfile, rfl⟩ := ih ho h
    exact ⟨.input input :: switches, file?, rfl, hlongest, hfile, rfl⟩
  | case5 => cases h
  | case6 => cases h
  | case7 o file hlatex hjson hinput hhelp =>
    refine ⟨[], some file, rfl, fun s hpre => ?_, ?_, (Option.some.inj h).symm⟩
    · cases s with
      | latex => exact hlatex (List.cons_prefix_cons.1 hpre).1.symm
      | json => exact hjson (List.cons_prefix_cons.1 hpre).1.symm
      | input text => exact absurd hpre.length_le (by simp [Switch.words])
    · rintro _ ⟨⟩
      rw [not_or] at hhelp
      simp only [List.mem_cons, List.not_mem_nil, or_false, not_or]
      exact ⟨hhelp.1, hhelp.2, hinput⟩
  | case8 => cases h

end Options

/-! ## Reading by positions -/

/-- The argument at a position. Asking for one where there is none is a fault. -/
def argAt (args : List Text) (i : ℕ) : Except ℕ Text :=
  match args[i]? with
  | some arg => .ok arg
  | none => .error i

/-- Goes on from position `i` over the words for outputs, up to the first other argument. -/
def outputsAt (args : List Text) (i : ℕ) (outputs : List Output) :
    Except ℕ (List Output × ℕ) :=
  if i < args.length then do
    match Output.ofWord? (← argAt args i) with
    | some output => outputsAt args (i + 1) (outputs ++ [output])
    | none => return (outputs, i)
  else return (outputs, i)
termination_by args.length - i

/-- Goes on from position `i` over the options, up to the first other argument. There is no result
if help is asked for, or if the last option lacks its input. -/
def switchesAt (args : List Text) (i : ℕ) (o : Options) : Except ℕ (Option (Options × ℕ)) :=
  if i < args.length then do
    let arg ← argAt args i
    if arg = "-l".toList then switchesAt args (i + 1) (o.set .latex)
    else if arg = "-j".toList then switchesAt args (i + 1) (o.set .json)
    else if arg = "-i".toList then
      match args[i + 1]? with
      | some input => switchesAt args (i + 2) (o.set (.input input))
      | none => return none
    else if arg = "-h".toList ∨ arg = "--help".toList then return none
    else return some (o, i)
  else return some (o, i)
termination_by args.length - i

/-- Takes the argument at the position, if there is one, for the file. -/
def fileAt (args : List Text) : Options × ℕ → Option Options
  | (o, i) =>
    if i + 1 < args.length ∨ o.outputs = [] then none else some { o with file? := args[i]? }

/-- What the arguments ask for, read with one position that moves from the first to the last. -/
def ofPositions (args : List Text) : Except ℕ (Option Options) := do
  let (outputs, i) ← outputsAt args 0 []
  return (← switchesAt args i ⟨outputs, .plain, [], none⟩).bind (fileAt args)

section

variable (before : List Text)

theorem argAt_append : argAt (before ++ arg :: rest) before.length = .ok arg := by
  simp [argAt]

theorem outputsAt_cons : outputsAt (before ++ arg :: rest) before.length outputs =
    match Output.ofWord? arg with
    | some output => outputsAt (before ++ arg :: rest) (before.length + 1) (outputs ++ [output])
    | none => .ok (outputs, before.length) := by
  rw [outputsAt, if_pos (by simp), argAt_append]
  rfl

theorem outputsAt_append (rest : List Text) (outputs : List Output) :
    outputsAt (before ++ rest) before.length outputs =
      .ok (outputs ++ (takeOutputs rest).1, before.length + (takeOutputs rest).1.length) := by
  induction rest generalizing before outputs with
  | nil =>
    rw [outputsAt, if_neg (by simp), takeOutputs, List.append_nil]
    rfl
  | cons arg rest ih =>
    rw [outputsAt_cons, takeOutputs]
    cases Output.ofWord? arg with
    | none => simp
    | some output =>
      have hnext := ih (before ++ [arg]) (outputs ++ [output])
      rw [List.append_assoc, List.append_assoc, List.length_append, Nat.add_assoc,
        Nat.add_comm [arg].length] at hnext
      exact hnext

theorem switchesAt_cons : switchesAt (before ++ arg :: rest) before.length o =
    if arg = "-l".toList then
      switchesAt (before ++ arg :: rest) (before.length + 1) (o.set .latex)
    else if arg = "-j".toList then
      switchesAt (before ++ arg :: rest) (before.length + 1) (o.set .json)
    else if arg = "-i".toList then
      match rest with
      | input :: rest =>
        switchesAt (before ++ arg :: input :: rest) (before.length + 2) (o.set (.input input))
      | [] => .ok none
    else if arg = "-h".toList ∨ arg = "--help".toList then .ok none
    else .ok (some (o, before.length)) := by
  have hnext : (before ++ arg :: rest)[before.length + 1]? = rest[0]? := by
    rw [List.getElem?_append_right (Nat.le_add_right _ 1), Nat.add_sub_cancel_left,
      List.getElem?_cons_succ]
  rw [switchesAt, if_pos (by simp), argAt_append, hnext]
  cases rest <;> rfl

theorem switchesAt_append (rest : List Text) (ho : o.file? = none) :
    ∃ next, switchesAt (before ++ rest) before.length o = .ok next ∧
      next.bind (fileAt (before ++ rest)) =
        if o.outputs = [] then none else Options.read o rest := by
  fun_induction Options.read o rest generalizing before with
  | case1 o =>
    refine ⟨_, by rw [switchesAt, if_neg (by simp)]; rfl, ?_⟩
    simp [fileAt, ← ho]
  | case2 o args ih =>
    have hnext := ih (before ++ ["-l".toList]) ho
    rw [List.append_assoc, List.length_append] at hnext
    rw [switchesAt_cons, if_pos rfl]
    exact hnext
  | case3 o args _ ih =>
    have hnext := ih (before ++ ["-j".toList]) ho
    rw [List.append_assoc, List.length_append] at hnext
    rw [switchesAt_cons, if_neg (by decide), if_pos rfl]
    exact hnext
  | case4 o input args _ _ ih =>
    have hnext := ih (before ++ ["-i".toList, input]) ho
    rw [List.append_assoc, List.length_append] at hnext
    rw [switchesAt_cons, if_neg (by decide), if_neg (by decide), if_pos rfl]
    exact hnext
  | case5 =>
    rw [switchesAt_cons, if_neg (by decide), if_neg (by decide), if_pos rfl]
    exact ⟨none, rfl, by simp⟩
  | case6 o arg args hlatex hjson hinput hhelp =>
    rw [switchesAt_cons, if_neg hlatex, if_neg hjson, if_neg hinput, if_pos hhelp]
    exact ⟨none, rfl, by simp⟩
  | case7 o file hlatex hjson hinput hhelp =>
    rw [switchesAt_cons, if_neg hlatex, if_neg hjson, if_neg hinput, if_neg hhelp]
    exact ⟨_, rfl, by simp [fileAt]⟩
  | case8 o arg args hlatex hjson hinput hhelp hrest =>
    rw [switchesAt_cons, if_neg hlatex, if_neg hjson, if_neg hinput, if_neg hhelp]
    refine ⟨_, rfl, ?_⟩
    have hlt := List.length_pos_of_ne_nil hrest
    simp [fileAt, hlt]

end

/-- **No position is out of range**, and reading by positions is reading from the front. -/
theorem ofPositions_eq (args : List Text) : ofPositions args = .ok (Options.ofArgs? args) := by
  obtain ⟨outputs, rest, hread⟩ : ∃ outputs rest, takeOutputs args = (outputs, rest) := ⟨_, _, rfl⟩
  obtain ⟨hargs, -⟩ := takeOutputs_eq_iff.1 hread
  have houtputs : outputsAt args 0 [] = .ok (outputs, outputs.length) := by
    have happend := outputsAt_append [] args []
    rw [hread] at happend
    simpa using happend
  obtain ⟨next, hnext, hfile⟩ := switchesAt_append (o := ⟨outputs, .plain, [], none⟩)
    (outputs.map Output.word) rest rfl
  rw [← hargs] at hnext hfile
  rw [List.length_map] at hnext
  rw [ofPositions, houtputs, Options.ofArgs?, hread]
  change (switchesAt args outputs.length _).map (·.bind (fileAt args)) = _
  rw [hnext]
  exact congrArg Except.ok hfile

/-! ## The calls that are answered -/

theorem Layout.IsGreedy.ofArgs?_words {l : Layout} (h : l.IsGreedy) :
    Options.ofArgs? l.words = some l.options := by
  rw [Options.ofArgs?, Layout.words, takeOutputs_map h.outputs_longest]
  simp only [if_neg h.outputs_ne_nil]
  rw [Layout.tail, Options.read_flatMap, Options.foldl_set,
    Options.read_toList rfl h.switches_longest h.file_notMem]
  rfl

theorem exists_layout (h : Options.ofArgs? args = some o) :
    ∃ l : Layout, l.IsGreedy ∧ l.words = args ∧ l.options = o := by
  obtain ⟨outputs, rest, hread⟩ : ∃ outputs rest, takeOutputs args = (outputs, rest) := ⟨_, _, rfl⟩
  obtain ⟨rfl, houtputs⟩ := takeOutputs_eq_iff.1 hread
  simp only [Options.ofArgs?, hread] at h
  split_ifs at h with hne
  obtain ⟨switches, file?, rfl, hlongest, hfile, rfl⟩ := Options.exists_switches rfl h
  refine ⟨⟨outputs, switches, file?⟩, ⟨hne, houtputs, hlongest, hfile⟩, rfl, ?_⟩
  rw [Options.foldl_set]
  rfl

/-- **The calls that are answered** are those in three parts, each as long as possible, and what is
asked for is what the parts say. Any other call is answered by the help text. No position beyond the
last argument is read. -/
theorem ofArgs?_eq_some_iff (args : List Text) :
    (∀ o, Options.ofArgs? args = some o ↔
      ∃ l : Layout, l.IsGreedy ∧ l.words = args ∧ l.options = o) ∧
    (Options.ofArgs? args = none ↔ ∀ l : Layout, l.IsGreedy → l.words ≠ args) ∧
    ofPositions args = .ok (Options.ofArgs? args) := by
  refine ⟨fun o => ⟨exists_layout, ?_⟩, ⟨fun h l hl => ?_, fun h => ?_⟩, ofPositions_eq args⟩
  · rintro ⟨l, hl, rfl, rfl⟩
    exact hl.ofArgs?_words
  · rintro rfl
    rw [hl.ofArgs?_words] at h
    cases h
  · refine Option.eq_none_iff_forall_ne_some.2 fun o ho => ?_
    obtain ⟨l, hl, hwords, -⟩ := exists_layout ho
    exact h l hl hwords

/-- The same text as an output, as an input and as the name of a file. -/
example : Options.ofArgs? ["tree".toList, "-i".toList, "-j".toList, "-l".toList, "-i".toList,
    "tree".toList, "-j".toList, "tree".toList] =
      some ⟨[.trees], .json, ["-j".toList, "tree".toList], some "tree".toList⟩ := by
  decide

end PredictiveParsing.CommandLine
