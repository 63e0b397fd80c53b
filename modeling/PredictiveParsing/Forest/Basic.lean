import PredictiveParsing.Symbol

/-!
# Forests

Labelled nodes, numbered in the order of their creation. Each node knows its parent and its
children. A node can be created under a parent or alone, and be moved under another parent later,
unless that would close a cycle.

* `Node`, `Forest`, `Forest.singleton`;
* `label`, `parent?`, `children`, `lineage`: what is known of a node;
* `addNode`, `addNodes`, `attach`: how a forest grows and changes;
* `size_addNode`, `size_attach`: only new nodes add to the number of nodes.
-/

namespace PredictiveParsing

/-- A node: its label, and its place among the other nodes. -/
structure Node where
  label : Char
  parent? : Option Nat
  children : List Nat
deriving DecidableEq

/-- Nodes in the order of their creation. Node `0` is the root from which a forest is shown. -/
structure Forest where
  nodes : Array Node
deriving DecidableEq

namespace Forest

/-- A root and nothing else. -/
def singleton (label : Char) : Forest := ⟨#[⟨label, none, []⟩]⟩

/-- The node from which a forest is shown. -/
def root : Nat := 0

section Views

variable (f : Forest)

/-- The number of nodes, whether they hang below the root or not. -/
def size : Nat := f.nodes.size

/-- The label of a node. A number that no node has reads as `ε`. -/
def label (i : Nat) : Char := (f.nodes[i]?.map (·.label)).getD epsilon

/-- The parent of a node, if it has one. -/
def parent? (i : Nat) : Option Nat := f.nodes[i]?.bind (·.parent?)

/-- The children of a node, in order. -/
def children (i : Nat) : List Nat := (f.nodes[i]?.map (·.children)).getD []

/-- The node has no children. -/
def isLeaf (i : Nat) : Bool := (f.children i).isEmpty

/-- A node and its ancestors, from the node upwards, `limit` of them at most. -/
def lineageWithin : Nat → Nat → List Nat
  | 0, _ => []
  | limit + 1, i => i :: ((f.parent? i).map (lineageWithin limit)).getD []

/-- A node and its ancestors, from the node upwards. -/
def lineage (i : Nat) : List Nat := f.lineageWithin f.size i

end Views

/-! ## Growing and moving -/

/-- The node `child` becomes the last child of `parent`; its own entry is not touched. -/
def adopt (f : Forest) (parent child : Nat) : Forest :=
  ⟨f.nodes.modify parent fun n => { n with children := n.children ++ [child] }⟩

/-- The node `child` is taken from the children of `parent`; its own entry is not touched. -/
def disown (f : Forest) (parent child : Nat) : Forest :=
  ⟨f.nodes.modify parent fun n => { n with children := n.children.filter (· ≠ child) }⟩

/-- Sets the parent of a node; the children of the parent are not touched. -/
def setParent (f : Forest) (child parent : Nat) : Forest :=
  ⟨f.nodes.modify child fun n => { n with parent? := some parent }⟩

/-- A new node, which gets the next number, as the last child of a parent or alone. -/
def addNode (f : Forest) (label : Char) : Option Nat → Forest
  | none => ⟨f.nodes.push ⟨label, none, []⟩⟩
  | some parent =>
    let id := f.size
    adopt ⟨f.nodes.push ⟨label, some parent, []⟩⟩ parent id

/-- New nodes under one parent, in order. -/
def addNodes (f : Forest) (labels : List Char) (parent : Nat) : Forest :=
  labels.foldl (fun f label => f.addNode label (some parent)) f

/-- Makes `child` the last child of `parent` and takes it from its former parent. -/
def move (f : Forest) (parent child : Nat) : Forest :=
  let freed := match f.parent? child with
    | some former => f.disown former child
    | none => f
  (freed.adopt parent child).setParent child parent

/-- Makes `child` the last child of `parent`, and says whether that is a change. Nothing happens if
`child` is a child of `parent` already, or is `parent` or an ancestor of it. -/
def attach (f : Forest) (parent child : Nat) : Bool × Forest :=
  if child ∈ f.children parent ∨ child ∈ f.lineage parent then (false, f)
  else (true, f.move parent child)

/-! ## The number of nodes -/

variable (f : Forest)

@[simp]
theorem size_singleton (label : Char) : (singleton label).size = 1 := rfl

@[simp]
theorem size_adopt (parent child : Nat) : (f.adopt parent child).size = f.size := by
  simp [adopt, size]

@[simp]
theorem size_disown (parent child : Nat) : (f.disown parent child).size = f.size := by
  simp [disown, size]

@[simp]
theorem size_setParent (child parent : Nat) : (f.setParent child parent).size = f.size := by
  simp [setParent, size]

@[simp]
theorem size_addNode (label : Char) (parent? : Option Nat) :
    (f.addNode label parent?).size = f.size + 1 := by
  cases parent? <;> simp [addNode, adopt, size]

@[simp]
theorem size_addNodes (labels : List Char) (parent : Nat) :
    (f.addNodes labels parent).size = f.size + labels.length := by
  unfold addNodes
  induction labels generalizing f with
  | nil => rfl
  | cons label labels ih => rw [List.foldl_cons, ih, size_addNode, List.length_cons]; omega

@[simp]
theorem size_move (parent child : Nat) : (f.move parent child).size = f.size := by
  unfold move
  split <;> simp

@[simp]
theorem size_attach (parent child : Nat) : (f.attach parent child).2.size = f.size := by
  unfold attach
  split <;> simp

end Forest

end PredictiveParsing
