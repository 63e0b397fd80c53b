import PredictiveParsing.Forest.Basic

/-!
# Walks through a forest

The nodes below the root, from left to right, with a stack of what is still to be visited: a walk
takes no more room for a deep tree than for a wide one.

* `preorder`: the visits of a walk, given what each visit leads to;
* `Forest.outline`: every node with its depth; `Forest.leaves`, `Forest.frontier`;
* `Visit`, `Forest.visits`: entering a node, passing from child to child, and leaving it.
-/

namespace PredictiveParsing

variable {α : Type}

/-- The visits of a walk that takes its next visit from a stack, and puts in its place the visits
that it leads to. At most `limit` visits are made; those made already are in `done`, last first. -/
def preorder (next : α → List α) : Nat → List α → List α → List α
  | 0, _, done => done.reverse
  | _ + 1, [], done => done.reverse
  | limit + 1, a :: stack, done => preorder next limit (next a ++ stack) (a :: done)

/-- A visit on the walk around a tree. -/
inductive Visit where
  | enter (node : Nat)
  | between
  | leave (node : Nat)
deriving DecidableEq

namespace Forest

variable (f : Forest)

/-- Every node below the root with its depth, parents before their children. -/
def outline : List (Nat × Nat) :=
  preorder (fun (i, depth) => (f.children i).map fun c => (c, depth + 1)) f.size [(root, 0)] []

/-- The leaves below the root, from left to right. -/
def leaves : List Nat := (f.outline.map (·.1)).filter f.isLeaf

/-- The labels of the leaves, from left to right. -/
def leafLabels : Text := f.leaves.map f.label

/-- What the tree derives: the labels of the leaves without `ε`. -/
def frontier : Text := f.leafLabels.filter (· ≠ epsilon)

/-- What follows upon a visit: after entering a node, its children, with a step between any two,
and then leaving it. -/
def visitsAfter : Visit → List Visit
  | .enter i => ((f.children i).map Visit.enter).intersperse .between ++ [.leave i]
  | .between => []
  | .leave _ => []

/-- The walk around the tree below the root. A node has two visits and at most one step before
it. -/
def visits : List Visit := preorder f.visitsAfter (3 * f.size) [.enter root] []

end Forest

end PredictiveParsing
