/-!
# Texts

A text is a list of characters. One character is one symbol, one column and one unit of length,
whatever its width in bytes.

* `isBlank`: the white space of Unicode, `Text.trim`, `Text.removeBlanks`;
* `Text.splitOn`, `Text.lines`: cutting a text at a separator and into lines;
* `Text.padLeft`: right alignment in a column;
* **`intercalate_splitOn`**: the pieces of a text, joined by the separator, are the text again.
-/

namespace PredictiveParsing

/-- A text, character by character. -/
abbrev Text : Type := List Char

/-! ## White space -/

/-- The code points of white space, as closed intervals in ascending order. -/
def blankRanges : List (Nat × Nat) :=
  [(0x09, 0x0D), (0x20, 0x20), (0x85, 0x85), (0xA0, 0xA0), (0x1680, 0x1680), (0x2000, 0x200A),
    (0x2028, 0x2029), (0x202F, 0x202F), (0x205F, 0x205F), (0x3000, 0x3000)]

/-- White space in the sense of Unicode's `White_Space` property. -/
def isBlank (c : Char) : Bool :=
  blankRanges.any fun (low, high) => low ≤ c.toNat && c.toNat ≤ high

namespace Text

/-- A text without the white space at its two ends. -/
def trim (t : Text) : Text := ((t.dropWhile isBlank).reverse.dropWhile isBlank).reverse

/-- A text without any white space. -/
def removeBlanks (t : Text) : Text := t.filter fun c => !isBlank c

/-! ## Cutting -/

/-- Puts a character in front of the first of some pieces. -/
def consPiece (c : Char) : List Text → List Text
  | [] => [[c]]
  | piece :: pieces => (c :: piece) :: pieces

/-- The pieces of a text once its first `skip` characters, which belong to a separator, are gone. -/
def splitFrom (separator : Text) : Nat → Text → List Text
  | _, [] => [[]]
  | skip + 1, _ :: t => splitFrom separator skip t
  | 0, c :: t =>
    if separator.isPrefixOf (c :: t) then [] :: splitFrom separator (separator.length - 1) t
    else consPiece c (splitFrom separator 0 t)

/-- The pieces between the occurrences of a nonempty separator, found from the left without
overlap. There is one piece more than there are separators. -/
def splitOn (separator t : Text) : List Text := splitFrom separator 0 t

/-- A line without the carriage return that ends it. -/
def dropReturn (line : Text) : Text := if line.getLast? = some '\r' then line.dropLast else line

/-- The lines of a text. A newline ends a line, together with one carriage return before it; text
after the last newline is one more line. -/
def lines (t : Text) : List Text :=
  let pieces := splitOn ['\n'] t
  pieces.dropLast.map dropReturn ++ pieces.getLast?.toList.filter (· ≠ [])

/-! ## Layout -/

/-- Right alignment: spaces in front, up to `width` characters. A longer text is left alone. -/
def padLeft (width : Nat) (t : Text) : Text := t.leftpad width ' '

/-- The decimal digits of a number. -/
def ofNat (n : Nat) : Text := Nat.toDigits 10 n

/-- The words `true` and `false`. -/
def ofBool (b : Bool) : Text := if b then "true".toList else "false".toList

/-! ## The pieces of a text -/

theorem consPiece_ne_nil (c : Char) (pieces : List Text) : consPiece c pieces ≠ [] := by
  cases pieces <;> simp [consPiece]

theorem splitFrom_ne_nil (separator t : Text) (skip : Nat) : splitFrom separator skip t ≠ [] := by
  fun_induction splitFrom separator skip t <;> simp_all [consPiece_ne_nil]

theorem intercalate_consPiece (separator : Text) (c : Char) {pieces : List Text}
    (h : pieces ≠ []) :
    separator.intercalate (consPiece c pieces) = c :: separator.intercalate pieces := by
  match pieces, h with
  | [piece], _ => simp [consPiece, List.intercalate]
  | piece :: next :: pieces, _ => simp [consPiece, List.intercalate]

theorem intercalate_nil_cons (separator : Text) {pieces : List Text} (h : pieces ≠ []) :
    separator.intercalate ([] :: pieces) = separator ++ separator.intercalate pieces := by
  match pieces, h with
  | piece :: pieces, _ => simp [List.intercalate]

theorem intercalate_splitFrom {separator : Text} (hs : separator ≠ []) (t : Text) (skip : Nat) :
    separator.intercalate (splitFrom separator skip t) = t.drop skip := by
  fun_induction splitFrom separator skip t with
  | case1 => simp [List.intercalate]
  | case2 _ _ _ ih => simpa using ih
  | case3 c t h ih =>
    obtain ⟨rest, hrest⟩ := List.isPrefixOf_iff_prefix.1 h
    match separator, hs with
    | s :: separator, _ =>
      simp only [List.cons_append, List.cons.injEq] at hrest
      obtain ⟨rfl, rfl⟩ := hrest
      rw [intercalate_nil_cons _ (splitFrom_ne_nil _ _ _), ih]
      simp
  | case4 c t h ih => rw [intercalate_consPiece _ _ (splitFrom_ne_nil _ _ _), ih]; simp

/-- **Cutting loses nothing**: the pieces, joined by the separator, are the text again. -/
theorem intercalate_splitOn {separator : Text} (hs : separator ≠ []) (t : Text) :
    separator.intercalate (splitOn separator t) = t :=
  intercalate_splitFrom hs t 0

end Text

end PredictiveParsing
