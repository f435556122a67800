import ServiceReach.Source.Kind

/-
  Syntax trees. A node has a kind, the bytes of the source it spans, a number of its own in the
  tree, and the field under which it stands in its parent. Trees are read from a preorder listing
  in which each row gives the number of its children.
-/

namespace ServiceReach.Source

/-- What a node is, apart from its children. -/
structure Label where
  kind : Kind
  /-- Named nodes stand for constructs; the others are keywords and punctuation. -/
  named : Bool := true
  /-- The number of the node in its tree. -/
  id : Nat := 0
  /-- The first byte of the node. -/
  start : Nat := 0
  /-- The byte after the node. -/
  stop : Nat := 0
  /-- The field of the parent. -/
  field : Option Field := none
deriving DecidableEq, Repr

/-- A syntax tree. -/
inductive Tree where
  | node (label : Label) (children : List Tree)
deriving Repr

namespace Tree

/-- The label of the root. -/
def label : Tree → Label
  | .node label _ => label

/-- The children of the root, in order. -/
def children : Tree → List Tree
  | .node _ children => children

/-- The kind of the root. -/
def kind (t : Tree) : Kind := t.label.kind

/-- The number of the root. -/
def id (t : Tree) : Nat := t.label.id

/-- The first byte of the tree. -/
def start (t : Tree) : Nat := t.label.start

/-- The byte after the tree. -/
def stop (t : Tree) : Nat := t.label.stop

/-- Whether the tree is a comment. -/
def isComment (t : Tree) : Bool :=
  t.kind == .lineComment || t.kind == .blockComment

/-- Whether the tree is a construct that is not a comment. -/
def isConstruct (t : Tree) : Bool :=
  t.label.named && !t.isComment

/-- The children that are constructs, comments left out. -/
def constructs (t : Tree) : List Tree :=
  t.children.filter isConstruct

/-- The first child of one of the kinds. -/
def child? (kinds : List Kind) (t : Tree) : Option Tree :=
  t.children.find? fun c => kinds.contains c.kind

/-- The first child under a field. -/
def field? (f : Field) (t : Tree) : Option Tree :=
  t.children.find? fun c => c.label.field == some f

/-- The children under a field. -/
def fields (f : Field) (t : Tree) : List Tree :=
  t.children.filter fun c => c.label.field == some f

mutual

/-- The number of nodes. -/
def size : Tree → Nat
  | .node _ children => sizeAll children + 1

/-- The number of nodes of several trees. -/
def sizeAll : List Tree → Nat
  | [] => 0
  | t :: rest => t.size + sizeAll rest

end

/-- A row of a preorder listing: a node and the number of its children. -/
structure Row where
  label : Label
  children : Nat

/-- Puts a node above the trees that follow it in a listing. -/
def gather (row : Row) (following : List Tree) : List Tree :=
  .node row.label (following.take row.children) :: following.drop row.children

/-- The tree of a preorder listing. -/
def ofRows? (rows : List Row) : Option Tree :=
  (rows.foldr gather []).head?

/-- The keyword modifiers of a declaration, each once; annotations are not among them. -/
def modifiers (t : Tree) : List String :=
  match t.child? [.modifiers] with
  | none => []
  | some m => ((m.children.filter fun c => !c.label.named).map fun c => c.kind.symbol).eraseDups

end Tree
end ServiceReach.Source
