import ComponentAudit.Tree.Kind

set_option autoImplicit false

/-! # Source trees

A source file as a table of nodes. A node is known by its number, which is its place in the
table and never changes: taking a node out of the tree only cuts the link to its parent, and
the node stays in the table with everything below it. So a number held by a caller always
denotes the same node, attached or not.

Each node lists its children and names its parent. Both views are kept by the operations that
move nodes (`detach`, `appendChild`, `insertChild`, `insertAfter`, `insertBefore`, `replace`).
The walks along them (`ancestors`, `descendants`) are bounded by the size of the table, which
no path in a tree exceeds.

Numbers are not bounded. Where they are kept in 32 bits, such a tree stands for a table of fewer
than 2 ^ 32 nodes. What becomes of a longer table, whose size does not fit, is not said here.
-/

namespace ComponentAudit

/-- The number of a node. -/
abbrev NodeId := Nat

/-- An entry of the table of nodes. -/
structure Node where
  kind : Kind
  parent : Option NodeId := none
  children : List NodeId := []
deriving DecidableEq, Inhabited

/-- What a number outside the table stands for: a blank that hangs nowhere. -/
def Node.absent : Node := { kind := .blank "" }

/-- A source tree: all nodes ever made, and the node of the file. -/
structure Tree where
  nodes : Array Node
  root : NodeId
deriving DecidableEq, Inhabited

namespace Tree

/-! ## Looking at nodes -/

/-- A file without declarations. -/
def ofFile (name : String) : Tree := { nodes := #[{ kind := .file name }], root := 0 }

/-- The number of nodes made so far. -/
def size (t : Tree) : Nat := t.nodes.size

/-- Whether a number denotes a node. -/
def has (t : Tree) (id : NodeId) : Bool := id < t.size

/-- The node of a number. -/
def node (t : Tree) (id : NodeId) : Node := t.nodes.getD id Node.absent

def kind (t : Tree) (id : NodeId) : Kind := (t.node id).kind

def parent (t : Tree) (id : NodeId) : Option NodeId := (t.node id).parent

def children (t : Tree) (id : NodeId) : List NodeId := (t.node id).children

/-- The name that a node declares or uses. -/
def name? (t : Tree) (id : NodeId) : Option String := (t.kind id).name?

/-- The children that are neither blanks nor comments. -/
def significant (t : Tree) (id : NodeId) : List NodeId :=
  (t.children id).filter fun c => !(t.kind c).isTrivia

/-- The first child of a kind that passes a test. -/
def child? (t : Tree) (id : NodeId) (test : Kind → Bool) : Option NodeId :=
  (t.children id).find? fun c => test (t.kind c)

/-- The place of a node among its parent's children. -/
def position? (t : Tree) (id : NodeId) : Option Nat :=
  (t.parent id).bind fun p => (t.children p).findIdx? (· == id)

/-- The sibling right after a node. -/
def next? (t : Tree) (id : NodeId) : Option NodeId := do
  let p ← t.parent id
  let i ← t.position? id
  (t.children p)[i + 1]?

/-- The sibling right before a node. -/
def prev? (t : Tree) (id : NodeId) : Option NodeId := do
  let p ← t.parent id
  match ← t.position? id with
  | 0 => none
  | i + 1 => (t.children p)[i]?

/-! ## Walking -/

/-- The chain of parents from an optional node on, cut off after so many steps. -/
def chain (t : Tree) : Nat → Option NodeId → List NodeId
  | 0, _ => []
  | _ + 1, none => []
  | n + 1, some p => p :: t.chain n (t.parent p)

/-- The nodes above a node, the nearest first. -/
def ancestors (t : Tree) (id : NodeId) : List NodeId := t.chain t.size (t.parent id)

/-- A node and the nodes above it, the nearest first. -/
def lineage (t : Tree) (id : NodeId) : List NodeId := id :: t.ancestors id

/-- The nearest node above a node that is of a kind which passes a test. -/
def ancestor? (t : Tree) (id : NodeId) (test : Kind → Bool) : Option NodeId :=
  (t.ancestors id).find? fun a => test (t.kind a)

/-- Whether a node lies below another one or is that node. -/
def isWithin (t : Tree) (id top : NodeId) : Bool := (t.lineage id).contains top

/-- Whether a node is part of the file. -/
def attached (t : Tree) (id : NodeId) : Bool := t.isWithin id t.root

/-- The nearest node that two nodes both lie below, each node counting as below itself. -/
def commonAncestor? (t : Tree) (a b : NodeId) : Option NodeId :=
  (t.lineage b).find? (t.lineage a).contains

/-- A node and what lies below it to a bounded depth, parents before their children and
earlier children before later ones. -/
def preorder (t : Tree) : Nat → NodeId → List NodeId
  | 0, _ => []
  | n + 1, id => id :: (t.children id).flatMap (t.preorder n)

/-- A node and everything below it, in the order of the source. -/
def descendants (t : Tree) (id : NodeId) : List NodeId := t.preorder t.size id

/-! ## Changing nodes -/

/-- The tree with one entry changed. -/
def modifyNode (t : Tree) (id : NodeId) (f : Node → Node) : Tree :=
  { t with nodes := t.nodes.modify id f }

def setKind (t : Tree) (id : NodeId) (kind : Kind) : Tree :=
  t.modifyNode id ({ · with kind })

def setParent (t : Tree) (id : NodeId) (parent : Option NodeId) : Tree :=
  t.modifyNode id ({ · with parent })

def modifyChildren (t : Tree) (id : NodeId) (f : List NodeId → List NodeId) : Tree :=
  t.modifyNode id fun n => { n with children := f n.children }

/-- The tree with one more node, which hangs nowhere. Its number is the size before. -/
def push (t : Tree) (kind : Kind) : Tree := { t with nodes := t.nodes.push { kind } }

/-! ## Moving nodes -/

/-- Cuts the link between a node and its parent. -/
def detach (t : Tree) (id : NodeId) : Tree :=
  match t.parent id with
  | none => t
  | some p => (t.setParent id none).modifyChildren p (·.filter (· != id))

/-- Makes a node the last child of another one, wherever it was before. -/
def appendChild (t : Tree) (parent id : NodeId) : Tree :=
  ((t.detach id).setParent id (some parent)).modifyChildren parent (· ++ [id])

/-- Makes a node a child of another one at the given place, or the last child when there are
not that many. -/
def insertChild (t : Tree) (parent : NodeId) (index : Nat) (id : NodeId) : Tree :=
  ((t.detach id).setParent id (some parent)).modifyChildren parent fun cs =>
    cs.take index ++ id :: cs.drop index

/-- Takes a node from where it is and puts it so many places after an anchor. Answers `false`
when the anchor hangs nowhere; a node cannot be put beside itself, and ends up detached. -/
def insertBeside (t : Tree) (anchor id : NodeId) (offset : Nat) : Bool × Tree :=
  match t.parent anchor with
  | none => (false, t)
  | some p =>
    let t := t.detach id
    match t.position? anchor with
    | some i => (true, t.insertChild p (i + offset) id)
    | none => (false, t)

/-- Puts a node right after an anchor. -/
def insertAfter (t : Tree) (anchor id : NodeId) : Bool × Tree := t.insertBeside anchor id 1

/-- Puts a node right before an anchor. -/
def insertBefore (t : Tree) (anchor id : NodeId) : Bool × Tree := t.insertBeside anchor id 0

/-- Puts a node in the place of another one, which ends up detached. -/
def replace (t : Tree) (old new : NodeId) : Bool × Tree :=
  if old = new then (true, t)
  else match t.insertBefore old new with
    | (true, t) => (true, t.detach old)
    | (false, t) => (false, t)

end Tree

end ComponentAudit
