import Mathlib
import PredictiveParsing.Json

/-!
# Reading JSON

A reader of JSON texts that goes by the grammar of JSON and not by how texts are written here: white
space may stand between any two parts, every escape is known, in either case of its digits, and
characters beyond U+FFFF may be given by two surrogates. Numbers and `null` are refused, as no value
here has them.

* `Json.readString`, `Json.readBlock`, `Json.readValue`: strings, bracketed entries and values, each
  with the text that is left; `Json.read?`: a whole text;
* `readChar_quoteChar`, `readString_quote`: an escaped character and a quoted text;
* `readBlock_intercalate`: entries with commas between them;
* `Json.induction`: induction over a value, by way of all its parts;
* **`readValue_render`**, **`read?_render`**: a written value is read back.
-/

namespace PredictiveParsing.Json

/-! ## The reader -/

/-- White space between the parts of a JSON text. -/
def isSpace (c : Char) : Bool := c = ' ' ∨ c = '\t' ∨ c = '\n' ∨ c = '\r'

/-- A text without the white space before it. -/
def skipSpaces (t : Text) : Text := t.dropWhile isSpace

/-- The value of a hexadecimal digit. -/
def hexDigit? (c : Char) : Option ℕ :=
  if '0' ≤ c ∧ c ≤ '9' then some (c.toNat - '0'.toNat)
  else if 'a' ≤ c ∧ c ≤ 'f' then some (c.toNat - 'a'.toNat + 10)
  else if 'A' ≤ c ∧ c ≤ 'F' then some (c.toNat - 'A'.toNat + 10)
  else none

/-- The number that four hexadecimal digits stand for. -/
def readUnit (t : Text) : Option (ℕ × Text) :=
  if t.length < 4 then none
  else ((t.take 4).mapM hexDigit?).map fun ds => (ds.foldl (fun n d => 16 * n + d) 0, t.drop 4)

/-- The character after `\u`. One beyond U+FFFF is given by a high and a low surrogate, and a
surrogate alone is no character. -/
def readUnicode (t : Text) : Option (Char × Text) := do
  let (unit, rest) ← readUnit t
  if 0xD800 ≤ unit ∧ unit < 0xDC00 then
    if rest.take 2 = ['\\', 'u'] then
      let (low, rest) ← readUnit (rest.drop 2)
      if 0xDC00 ≤ low ∧ low < 0xE000 then
        some (Char.ofNat (0x10000 + (unit - 0xD800) * 0x400 + (low - 0xDC00)), rest)
      else none
    else none
  else if 0xDC00 ≤ unit ∧ unit < 0xE000 then none
  else some (Char.ofNat unit, rest)

/-- The character that a letter stands for after a backslash. -/
def unescape? : Char → Option Char
  | '"' => some '"'
  | '\\' => some '\\'
  | '/' => some '/'
  | 'b' => some '\x08'
  | 'f' => some '\x0c'
  | 'n' => some '\n'
  | 'r' => some '\r'
  | 't' => some '\t'
  | _ => none

/-- One character of a string. Control characters must be escaped. -/
def readChar : Text → Option (Char × Text)
  | [] => none
  | '\\' :: [] => none
  | '\\' :: c :: rest => if c = 'u' then readUnicode rest else (unescape? c).map fun d => (d, rest)
  | c :: rest => if c.toNat < 0x20 then none else some (c, rest)

/-- The characters of a string up to the quotation mark that ends it. -/
def readChars : ℕ → Text → Option (Text × Text)
  | 0, _ => none
  | limit + 1, t =>
    if t.head? = some '"' then some ([], t.tail)
    else do
      let (c, rest) ← readChar t
      let (cs, rest) ← readChars limit rest
      return (c :: cs, rest)

/-- A string. It has no more characters than the text. -/
def readString : Text → Option (Text × Text)
  | '"' :: rest => readChars rest.length rest
  | _ => none

section

variable {α : Type} (entry : Text → Option (α × Text)) (close : Char)

/-- One or more entries with commas between them, up to the closing bracket. -/
def readEntries : ℕ → Text → Option (List α × Text)
  | 0, _ => none
  | limit + 1, t => do
    let (a, rest) ← entry t
    match skipSpaces rest with
    | [] => none
    | c :: rest =>
      if c = close then some ([a], rest)
      else if c = ',' then
        let (as, rest) ← readEntries limit rest
        return (a :: as, rest)
      else none

/-- What stands after an opening bracket: no entries, or some. There are no more entries than
characters. -/
def readBlock (t : Text) : Option (List α × Text) :=
  match skipSpaces t with
  | [] => none
  | c :: rest => if c = close then some ([], rest) else readEntries entry close t.length t

end

/-- A field of an object: a string, a colon and a value. -/
def readField (value : Text → Option (Json × Text)) (t : Text) :
    Option ((Text × Json) × Text) := do
  let (key, rest) ← readString (skipSpaces t)
  match skipSpaces rest with
  | ':' :: rest =>
    let (v, rest) ← value rest
    return ((key, v), rest)
  | _ => none

/-- A value in which brackets are nested less than `levels` deep. -/
def readValue : ℕ → Text → Option (Json × Text)
  | 0, _ => none
  | levels + 1, t =>
    match skipSpaces t with
    | '"' :: rest => do
      let (s, rest) ← readString ('"' :: rest)
      return (string s, rest)
    | '[' :: rest => do
      let (items, rest) ← readBlock (readValue levels) ']' rest
      return (array items, rest)
    | '{' :: rest => do
      let (fields, rest) ← readBlock (readField (readValue levels)) '}' rest
      return (object fields, rest)
    | 't' :: 'r' :: 'u' :: 'e' :: rest => some (bool true, rest)
    | 'f' :: 'a' :: 'l' :: 's' :: 'e' :: rest => some (bool false, rest)
    | _ => none

/-- The value of a JSON text, if it is one. Brackets are nested no deeper than the text is long. -/
def read? (t : Text) : Option Json := do
  let (v, rest) ← readValue t.length t
  if skipSpaces rest = [] then some v else none

/-! ## Strings -/

variable {c : Char} {t rest : Text} {limit levels : ℕ}

theorem skipSpaces_cons (h : isSpace c = false) : skipSpaces (c :: t) = c :: t :=
  List.dropWhile_cons_of_neg (by simp [h])

theorem hexDigit?_digitChar : ∀ d < 16, hexDigit? (Nat.digitChar d) = some d := by
  decide

theorem readUnit_control (hc : c.toNat < 0x20) :
    readUnit ('0' :: '0' :: Nat.digitChar (c.toNat / 16) :: Nat.digitChar (c.toNat % 16) :: rest) =
      some (c.toNat, rest) := by
  have hzero : hexDigit? '0' = some 0 := by decide
  have hhigh := hexDigit?_digitChar (c.toNat / 16) (by omega)
  have hlow := hexDigit?_digitChar (c.toNat % 16) (Nat.mod_lt _ (by decide))
  have hsum : 16 * (c.toNat / 16) + c.toNat % 16 = c.toNat := Nat.div_add_mod _ _
  simp [readUnit, hzero, hhigh, hlow, hsum]

theorem readUnicode_control (hc : c.toNat < 0x20) :
    readUnicode ('0' :: '0' :: Nat.digitChar (c.toNat / 16) ::
      Nat.digitChar (c.toNat % 16) :: rest) = some (c, rest) := by
  rw [readUnicode, readUnit_control hc]
  change (if _ then _ else if _ then _ else _) = _
  rw [if_neg (by omega), if_neg (by omega), Char.ofNat_toNat]

theorem readChar_quoteChar (c : Char) (rest : Text) :
    readChar (quoteChar c ++ rest) = some (c, rest) := by
  unfold quoteChar
  split
  · rfl
  · rfl
  · rfl
  · rfl
  · rfl
  · rfl
  · rfl
  · next hquote hbackslash _ _ _ _ _ =>
    split
    · next hc => exact readUnicode_control hc
    · next hc =>
      rw [List.singleton_append, readChar, if_neg hc]
      · exact fun h _ => hbackslash h
      · exact fun _ _ h _ => hbackslash h

theorem quoteChar_eq_cons (c : Char) : ∃ d ds, quoteChar c = d :: ds ∧ d ≠ '"' := by
  unfold quoteChar
  split
  · exact ⟨_, _, rfl, by decide⟩
  · exact ⟨_, _, rfl, by decide⟩
  · exact ⟨_, _, rfl, by decide⟩
  · exact ⟨_, _, rfl, by decide⟩
  · exact ⟨_, _, rfl, by decide⟩
  · exact ⟨_, _, rfl, by decide⟩
  · exact ⟨_, _, rfl, by decide⟩
  · next hquote _ _ _ _ _ _ =>
    split
    · exact ⟨_, _, rfl, by decide⟩
    · exact ⟨c, [], rfl, hquote⟩

theorem length_le_length_flatMap (t : Text) : t.length ≤ (t.flatMap quoteChar).length := by
  induction t with
  | nil => exact Nat.le_refl 0
  | cons c t ih =>
    obtain ⟨d, ds, hc, -⟩ := quoteChar_eq_cons c
    rw [List.flatMap_cons, hc, List.length_append, List.length_cons, List.length_cons]
    omega

theorem readChars_cons {cs after : Text} (ht : t.head? ≠ some '"')
    (hc : readChar t = some (c, rest)) (hcs : readChars limit rest = some (cs, after)) :
    readChars (limit + 1) t = some (c :: cs, after) := by
  simp [readChars, ht, hc, hcs]

theorem readChars_flatMap (t rest : Text) (hlimit : t.length < limit) :
    readChars limit (t.flatMap quoteChar ++ '"' :: rest) = some (t, rest) := by
  induction t generalizing limit with
  | nil =>
    obtain ⟨limit, rfl⟩ := Nat.exists_eq_succ_of_ne_zero (Nat.ne_zero_of_lt hlimit)
    rfl
  | cons c t ih =>
    obtain ⟨limit, rfl⟩ := Nat.exists_eq_succ_of_ne_zero (Nat.ne_zero_of_lt hlimit)
    obtain ⟨d, ds, hc, hd⟩ := quoteChar_eq_cons c
    rw [List.flatMap_cons, List.append_assoc]
    refine readChars_cons ?_ (readChar_quoteChar c _) (ih (Nat.lt_of_succ_lt_succ hlimit))
    rw [hc]
    simpa using hd

theorem readString_quote (t rest : Text) : readString (quote t ++ rest) = some (t, rest) := by
  have hle := length_le_length_flatMap t
  have hlimit : t.length < (t.flatMap quoteChar ++ '"' :: rest).length := by
    rw [List.length_append, List.length_cons]
    omega
  simpa [quote, readString] using readChars_flatMap t rest hlimit

/-! ## Entries -/

theorem length_intercalate {ts : List Text} (hts : ts ≠ []) :
    ([','].intercalate ts).length + 1 = (ts.map fun t => t.length + 1).sum := by
  induction ts with
  | nil => exact absurd rfl hts
  | cons t ts ih =>
    cases ts with
    | nil => simp
    | cons u us =>
      rw [List.intercalate_cons_cons, List.map_cons, List.sum_cons, ← ih (List.cons_ne_nil u us)]
      simp only [List.length_append, List.length_singleton]
      omega

theorem length_le_of_mem {ts : List Text} (ht : t ∈ ts) :
    t.length ≤ ([','].intercalate ts).length := by
  have hle := List.le_sum_of_mem (List.mem_map_of_mem (f := fun t : Text => t.length + 1) ht)
  rw [← length_intercalate (List.ne_nil_of_mem ht)] at hle
  exact Nat.le_of_succ_le_succ hle

theorem length_le_length_intercalate (ts : List Text) :
    ts.length ≤ ([','].intercalate ts).length + 1 := by
  by_cases hts : ts = []
  · rw [hts]
    exact Nat.zero_le _
  · have hle := List.length_le_sum_of_one_le (ts.map fun t => t.length + 1) (by simp)
    rwa [List.length_map, ← length_intercalate hts] at hle

section

variable {α : Type} {entry : Text → Option (α × Text)} {write : α → Text} {close : Char} {a : α}
  {as : List α} {after last : Text}

theorem readEntries_last (ha : entry t = some (a, rest))
    (hrest : skipSpaces rest = close :: after) :
    readEntries entry close (limit + 1) t = some ([a], after) := by
  simp [readEntries, ha, hrest]

theorem readEntries_cons (hcomma : close ≠ ',') (ha : entry t = some (a, rest))
    (hrest : skipSpaces rest = ',' :: after)
    (has : readEntries entry close limit after = some (as, last)) :
    readEntries entry close (limit + 1) t = some (a :: as, last) := by
  simp [readEntries, ha, hrest, has, Ne.symm hcomma]

theorem readEntries_intercalate (hspace : isSpace close = false) (hcomma : close ≠ ',')
    (has : as ≠ []) (hentry : ∀ a ∈ as, ∀ rest, entry (write a ++ rest) = some (a, rest))
    (rest : Text) (hlimit : as.length ≤ limit) :
    readEntries entry close limit ([','].intercalate (as.map write) ++ close :: rest) =
      some (as, rest) := by
  induction as generalizing limit with
  | nil => exact absurd rfl has
  | cons a as ih =>
    obtain ⟨limit, rfl⟩ := Nat.exists_eq_succ_of_ne_zero (Nat.ne_zero_of_lt hlimit)
    obtain ⟨ha, hentry⟩ := List.forall_mem_cons.1 hentry
    cases as with
    | nil =>
      rw [List.map_singleton, List.intercalate_singleton]
      exact readEntries_last (ha _) (skipSpaces_cons hspace)
    | cons b as =>
      rw [List.map_cons, List.map_cons, List.intercalate_cons_cons, List.append_assoc,
        List.append_assoc, List.singleton_append, ← List.map_cons]
      exact readEntries_cons hcomma (ha _) (skipSpaces_cons rfl)
        (ih (List.cons_ne_nil b as) hentry (Nat.le_of_succ_le_succ hlimit))

theorem readBlock_nil (ht : skipSpaces t = close :: rest) :
    readBlock entry close t = some ([], rest) := by
  simp [readBlock, ht]

theorem readBlock_of_ne (ht : skipSpaces t = c :: rest) (hc : c ≠ close) :
    readBlock entry close t = readEntries entry close t.length t := by
  simp [readBlock, ht, hc]

/-- **Entries with commas between them** are read back, if each of them is. -/
theorem readBlock_intercalate (hspace : isSpace close = false) (hcomma : close ≠ ',')
    (hentry : ∀ a ∈ as, ∀ rest, entry (write a ++ rest) = some (a, rest))
    (hhead : ∀ a ∈ as, ∃ c cs, write a = c :: cs ∧ isSpace c = false ∧ c ≠ close) (rest : Text) :
    readBlock entry close ([','].intercalate (as.map write) ++ close :: rest) = some (as, rest) := by
  cases as with
  | nil => exact readBlock_nil (skipSpaces_cons hspace)
  | cons a as =>
    obtain ⟨c, cs, ha, hc, hclose⟩ := hhead a List.mem_cons_self
    obtain ⟨more, hmore⟩ : ∃ more, [','].intercalate ((a :: as).map write) ++ close :: rest =
        c :: more := by
      rw [List.map_cons, ha]
      cases as with
      | nil => exact ⟨_, rfl⟩
      | cons b as => exact ⟨_, by rw [List.map_cons, List.intercalate_cons_cons]; rfl⟩
    rw [readBlock_of_ne (by rw [hmore, skipSpaces_cons hc]) hclose]
    refine readEntries_intercalate hspace hcomma (List.cons_ne_nil a as) hentry rest ?_
    have hle := length_le_length_intercalate ((a :: as).map write)
    rw [List.length_map] at hle
    rw [List.length_append, List.length_cons (a := close)]
    omega

end

/-! ## Values -/

/-- **Induction over a value**, by way of all its parts. -/
@[elab_as_elim]
theorem induction {P : Json → Prop} (string : ∀ t, P (string t)) (bool : ∀ b, P (bool b))
    (array : ∀ items, (∀ v ∈ items, P v) → P (array items))
    (object : ∀ fields, (∀ f ∈ fields, P f.2) → P (object fields)) : ∀ v, P v
  | .string t => string t
  | .bool b => bool b
  | .array items => array items fun v _ => induction string bool array object v
  | .object fields => object fields fun f _ => induction string bool array object f.2
decreasing_by
  · next h =>
    have hlt := List.sizeOf_lt_of_mem h
    simp only [Json.array.sizeOf_spec]
    omega
  · next h =>
    have hlt := List.sizeOf_lt_of_mem h
    obtain ⟨key, v⟩ := f
    simp only [Json.object.sizeOf_spec, Prod.mk.sizeOf_spec] at hlt ⊢
    omega

theorem render_array (items : List Json) :
    (array items).render = '[' :: [','].intercalate (items.map render) ++ [']'] := by
  rw [render, renderItems_eq]

/-- A field as it is written. -/
def writeField (f : Text × Json) : Text := quote f.1 ++ ':' :: f.2.render

theorem render_object (fields : List (Text × Json)) :
    (object fields).render = '{' :: [','].intercalate (fields.map writeField) ++ ['}'] := by
  rw [render, renderFields_eq]
  rfl

theorem render_eq_cons (v : Json) : ∃ c cs, v.render = c :: cs ∧ isSpace c = false ∧ c ≠ ']' := by
  cases v with
  | string t => exact ⟨_, _, by rw [render, quote]; rfl, rfl, by decide⟩
  | bool b => cases b <;> exact ⟨_, _, by rw [render]; rfl, rfl, by decide⟩
  | array items => exact ⟨_, _, by rw [render]; rfl, rfl, by decide⟩
  | object fields => exact ⟨_, _, by rw [render]; rfl, rfl, by decide⟩

theorem readField_writeField {value : Text → Option (Json × Text)} {f : Text × Json}
    (hvalue : ∀ rest, value (f.2.render ++ rest) = some (f.2, rest)) (rest : Text) :
    readField value (writeField f ++ rest) = some (f, rest) := by
  have hkey : skipSpaces (writeField f ++ rest) =
      quote f.1 ++ ':' :: (f.2.render ++ rest) := by
    rw [writeField, List.append_assoc, List.cons_append]
    exact skipSpaces_cons rfl
  simp [readField, hkey, readString_quote, skipSpaces_cons (c := ':') rfl, hvalue]

theorem readValue_string {s : Text} (h : readString ('"' :: t) = some (s, rest)) :
    readValue (levels + 1) ('"' :: t) = some (string s, rest) := by
  simp [readValue, skipSpaces_cons (c := '"') rfl, h]

theorem readValue_array {items : List Json}
    (h : readBlock (readValue levels) ']' t = some (items, rest)) :
    readValue (levels + 1) ('[' :: t) = some (array items, rest) := by
  simp [readValue, skipSpaces_cons (c := '[') rfl, h]

theorem readValue_object {fields : List (Text × Json)}
    (h : readBlock (readField (readValue levels)) '}' t = some (fields, rest)) :
    readValue (levels + 1) ('{' :: t) = some (object fields, rest) := by
  simp [readValue, skipSpaces_cons (c := '{') rfl, h]

/-- **A written value** is read back, whatever comes after it. -/
theorem readValue_render (v : Json) (hlevels : v.render.length ≤ levels) (rest : Text) :
    readValue levels (v.render ++ rest) = some (v, rest) := by
  induction v using Json.induction generalizing levels rest with
  | string t =>
    rw [render] at hlevels ⊢
    obtain ⟨levels, rfl⟩ := Nat.exists_eq_succ_of_ne_zero (Nat.ne_zero_of_lt hlevels)
    exact readValue_string (readString_quote t rest)
  | bool b =>
    obtain ⟨levels, rfl⟩ : ∃ more, levels = more + 1 := by
      refine Nat.exists_eq_succ_of_ne_zero ?_
      rintro rfl
      cases b <;> exact absurd hlevels (by decide)
    cases b
    · rfl
    · rfl
  | array items ih =>
    rw [render_array] at hlevels ⊢
    obtain ⟨levels, rfl⟩ := Nat.exists_eq_succ_of_ne_zero (Nat.ne_zero_of_lt hlevels)
    rw [List.cons_append, List.cons_append, List.append_assoc]
    refine readValue_array (readBlock_intercalate rfl (by decide) (fun v hv rest => ?_)
      (fun v _ => render_eq_cons v) rest)
    refine ih v hv ?_ rest
    have hle := length_le_of_mem (List.mem_map_of_mem (f := render) hv)
    rw [List.length_append, List.length_cons] at hlevels
    omega
  | object fields ih =>
    rw [render_object] at hlevels ⊢
    obtain ⟨levels, rfl⟩ := Nat.exists_eq_succ_of_ne_zero (Nat.ne_zero_of_lt hlevels)
    rw [List.cons_append, List.cons_append, List.append_assoc]
    refine readValue_object (readBlock_intercalate rfl (by decide) (fun f hf => ?_)
      (fun f _ => ⟨'"', _, rfl, rfl, by decide⟩) rest)
    refine readField_writeField (ih f hf ?_)
    have hle := length_le_of_mem (List.mem_map_of_mem (f := writeField) hf)
    rw [List.length_append, List.length_cons] at hlevels
    rw [writeField, List.length_append, List.length_cons] at hle
    omega

/-- **Reading gives back the value** that a text was written for. -/
theorem read?_render (v : Json) : read? v.render = some v := by
  have h := readValue_render v (Nat.le_refl _) []
  rw [List.append_nil] at h
  rw [read?, h, Option.bind_eq_bind, Option.bind_some]
  exact if_pos rfl

/-- White space, a letter for a line break, digits in capitals, and a character in two units. -/
example : (read? "[ \"\\/\\n\\u00AB\\uD83D\\uDE00\" ,true]\n".toList).map render =
    some "[\"/\\n«😀\",true]".toList := by
  decide +kernel

end PredictiveParsing.Json
