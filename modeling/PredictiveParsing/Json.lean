import PredictiveParsing.Text.Order

/-!
# JSON

The JSON values that reports are made of, and their text without white space. The fields of an
object are written in the order in which they stand.

* `Json`: strings, truth values, arrays and objects;
* `Json.quote`: a text as a JSON string;
* `Json.ofMap`: an object that is kept in order of its names;
* `Json.render`: the text of a value.
-/

namespace PredictiveParsing

/-- A JSON value. -/
inductive Json where
  | string (t : Text)
  | bool (b : Bool)
  | array (items : List Json)
  | object (fields : List (Text × Json))

namespace Json

/-- An object of entries with different names, which is kept in the order of the names. -/
def ofMap (entries : List (Text × Json)) : Json := object (sortOn (·.1) entries)

/-- A character inside a JSON string. Quotation marks, backslashes and the characters below the
space are escaped, by a letter where JSON has one and by four digits otherwise. -/
def quoteChar (c : Char) : Text :=
  match c with
  | '"' => ['\\', '"']
  | '\\' => ['\\', '\\']
  | '\x08' => ['\\', 'b']
  | '\t' => ['\\', 't']
  | '\n' => ['\\', 'n']
  | '\x0c' => ['\\', 'f']
  | '\r' => ['\\', 'r']
  | c =>
    if c.toNat < 0x20 then
      ['\\', 'u', '0', '0', Nat.digitChar (c.toNat / 16), Nat.digitChar (c.toNat % 16)]
    else [c]

/-- A text as a JSON string. -/
def quote (t : Text) : Text := '"' :: t.flatMap quoteChar ++ ['"']

mutual

/-- The text of a value. -/
def render : Json → Text
  | string t => quote t
  | bool b => Text.ofBool b
  | array items => '[' :: [','].intercalate (renderItems items) ++ [']']
  | object fields => '{' :: [','].intercalate (renderFields fields) ++ ['}']

/-- The texts of the items of an array. -/
def renderItems : List Json → List Text
  | [] => []
  | item :: items => item.render :: renderItems items

/-- The texts of the fields of an object. -/
def renderFields : List (Text × Json) → List Text
  | [] => []
  | (key, value) :: fields => (quote key ++ ':' :: value.render) :: renderFields fields

end

theorem renderItems_eq (items : List Json) : renderItems items = items.map render := by
  induction items with
  | nil => rfl
  | cons item items ih => rw [renderItems, ih, List.map_cons]

theorem renderFields_eq (fields : List (Text × Json)) :
    renderFields fields = fields.map fun f => quote f.1 ++ ':' :: f.2.render := by
  induction fields with
  | nil => rfl
  | cons f fields ih => rw [renderFields, ih, List.map_cons]

/-- An array of strings. -/
def strings (ts : List Text) : Json := array (ts.map string)

end Json

end PredictiveParsing
