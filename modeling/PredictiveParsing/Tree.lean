import PredictiveParsing.Forest.Rendering
import PredictiveParsing.Grammar.Basic

/-!
# Trees

Labelled ordered trees as a type of their own, with everything that is said about the tree below the
root of a forest said by recursion.

* `Tree`, `Tree.leafLabels`, `Tree.frontier`, `Tree.size`;
* `Forest.tree`: the tree below the root of a forest;
* `Tree.text`, `Tree.plain`, `Tree.json`, `Tree.latex`: its texts;
* `Tree.IsDerivation`: the complete derivation trees of a grammar.
-/

namespace PredictiveParsing

/-- A label and the trees below it. -/
inductive Tree (α : Type) where
  | node (label : α) (children : List (Tree α))

namespace Tree

section

variable {α : Type}

/-- The label of the root. -/
def label : Tree α → α
  | node label _ => label

/-- The trees below the root. -/
def children : Tree α → List (Tree α)
  | node _ children => children

mutual

/-- The number of nodes. -/
def size : Tree α → Nat
  | node _ children => sizeAll children + 1

/-- The number of nodes of several trees. -/
def sizeAll : List (Tree α) → Nat
  | [] => 0
  | t :: ts => t.size + sizeAll ts

end

mutual

/-- The labels of the leaves, from left to right. -/
def leafLabels : Tree α → List α
  | node label [] => [label]
  | node _ (t :: ts) => t.leafLabels ++ leafLabelsAll ts

/-- The labels of the leaves of several trees. -/
def leafLabelsAll : List (Tree α) → List α
  | [] => []
  | t :: ts => t.leafLabels ++ leafLabelsAll ts

end

end

/-- What the tree derives: the labels of the leaves without `ε`. -/
def frontier (t : Tree Char) : Text := t.leafLabels.filter (· ≠ epsilon)

/-! ## Texts -/

mutual

/-- A label, then the children in parentheses if there are any. -/
def text : Tree Char → Text
  | node label [] => [label]
  | node label (t :: ts) => label :: '(' :: [',', ' '].intercalate (textAll (t :: ts)) ++ [')']

/-- The texts of several trees. -/
def textAll : List (Tree Char) → List Text
  | [] => []
  | t :: ts => t.text :: textAll ts

end

mutual

/-- The nodes with their depths, if the root has the given depth. -/
def outline (depth : Nat) : Tree Char → List (Nat × Char)
  | node label children => (depth, label) :: outlineAll (depth + 1) children

/-- The nodes of several trees whose roots have the given depth. -/
def outlineAll (depth : Nat) : List (Tree Char) → List (Nat × Char)
  | [] => []
  | t :: ts => t.outline depth ++ outlineAll depth ts

end

/-- One node per line, two spaces in for each level. -/
def plain (t : Tree Char) : Text :=
  ['\n'].intercalate ((t.outline 0).map fun (depth, label) => .replicate (2 * depth) ' ' ++ [label])

mutual

/-- An object with the label and the array of the children. -/
def json : Tree Char → Json
  | node label children =>
    .object [("label".toList, .string [label]), ("children".toList, .array (jsonAll children))]

/-- The objects of several trees. -/
def jsonAll : List (Tree Char) → List Json
  | [] => []
  | t :: ts => t.json :: jsonAll ts

end

mutual

/-- Brackets around a label and its children; a leaf stands without brackets. -/
def bracketed : Tree Char → Text
  | node label [] => Forest.latexLabel label
  | node label (t :: ts) =>
    "[.".toList ++ Forest.latexLabel label ++ ' ' :: [' '].intercalate (bracketedAll (t :: ts)) ++
      [' ', ']']

/-- The texts of several trees. -/
def bracketedAll : List (Tree Char) → List Text
  | [] => []
  | t :: ts => t.bracketed :: bracketedAll ts

end

/-- The tree in brackets after `\Tree`. -/
def latex (t : Tree Char) : Text := "\\Tree ".toList ++ t.bracketed

/-! ## Derivation trees -/

/-- The complete derivation trees of a grammar. Below a nonterminal stand the symbols of one of its
productions, or `ε` if it is empty; a leaf is a terminal or such an `ε`. -/
inductive IsDerivation (g : Grammar) : Tree Char → Prop where
  | terminal (a : Char) (h : a ∉ g.nonterminals) (ne_epsilon : a ≠ epsilon) :
    IsDerivation g (node a [])
  | vanish (A : Char) (h : [] ∈ g.productions A) : IsDerivation g (node A [node epsilon []])
  | expand (A : Char) (t : Tree Char) (ts : List (Tree Char))
      (h : (t :: ts).map label ∈ g.productions A)
      (below : ∀ s ∈ t :: ts, IsDerivation g s) : IsDerivation g (node A (t :: ts))

end Tree

namespace Forest

variable (f : Forest)

/-- The tree below a node, down to the given number of levels. -/
def treeWithin : Nat → Nat → Tree Char
  | 0, i => .node (f.label i) []
  | levels + 1, i => .node (f.label i) ((f.children i).map (treeWithin levels))

/-- The tree below the root. -/
def tree : Tree Char := f.treeWithin f.size root

end Forest

end PredictiveParsing
