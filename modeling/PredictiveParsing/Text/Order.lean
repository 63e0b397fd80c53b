import PredictiveParsing.Text.Basic

/-!
# Order of names

Names are ordered as lists of code points, which is also the order of their UTF-8 bytes.

* `insertOn`, `sortOn`: a stable sort by a key that is a text.
-/

namespace PredictiveParsing

variable {α : Type}

/-- Puts `a` in front of the first entry whose key is not smaller. -/
def insertOn (key : α → Text) (a : α) : List α → List α
  | [] => [a]
  | b :: bs => if key b < key a then b :: insertOn key a bs else a :: b :: bs

/-- The entries in ascending order of their keys; entries with one key keep their order. -/
def sortOn (key : α → Text) (as : List α) : List α := as.foldr (insertOn key) []

end PredictiveParsing
