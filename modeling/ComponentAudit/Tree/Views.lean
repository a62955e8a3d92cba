import ComponentAudit.Tree.Basic

set_option autoImplicit false

/-! # What the operations on trees do

Each operation described by its effect on the three things that can be seen of a node: its
kind, its parent and its children. Main statements: `parent_detach` and `children_detach` for
taking a node out, `parent_appendChild` and `children_appendChild` for putting it elsewhere. All
moves keep the kinds and the number of nodes.
-/

namespace ComponentAudit.Tree

variable (t : Tree) (id n : NodeId)

/-! ## Single entries -/

@[simp] theorem size_modifyNode (f : Node → Node) : (t.modifyNode id f).size = t.size := by
  simp [size, modifyNode]

theorem node_modifyNode (f : Node → Node) :
    (t.modifyNode id f).node n = if n = id ∧ n < t.size then f (t.node n) else t.node n := by
  simp only [node, modifyNode, size, Array.getD_eq_getD_getElem?, Array.getElem?_modify]
  by_cases hn : n < t.nodes.size
  · by_cases h : id = n
    · simp [h, hn]
    · simp [h, Ne.symm h]
  · by_cases h : id = n <;> simp [h, hn]

@[simp] theorem size_setKind (k : Kind) : (t.setKind id k).size = t.size := size_modifyNode ..

theorem kind_setKind (k : Kind) :
    (t.setKind id k).kind n = if n = id ∧ n < t.size then k else t.kind n := by
  simp only [kind, setKind, node_modifyNode]
  split <;> rfl

@[simp] theorem parent_setKind (k : Kind) : (t.setKind id k).parent n = t.parent n := by
  simp only [parent, setKind, node_modifyNode]
  split <;> rfl

@[simp] theorem children_setKind (k : Kind) : (t.setKind id k).children n = t.children n := by
  simp only [children, setKind, node_modifyNode]
  split <;> rfl

@[simp] theorem size_setParent (p : Option NodeId) : (t.setParent id p).size = t.size :=
  size_modifyNode ..

@[simp] theorem kind_setParent (p : Option NodeId) : (t.setParent id p).kind n = t.kind n := by
  simp only [kind, setParent, node_modifyNode]
  split <;> rfl

theorem parent_setParent (p : Option NodeId) :
    (t.setParent id p).parent n = if n = id ∧ n < t.size then p else t.parent n := by
  simp only [parent, setParent, node_modifyNode]
  split <;> rfl

@[simp] theorem children_setParent (p : Option NodeId) :
    (t.setParent id p).children n = t.children n := by
  simp only [children, setParent, node_modifyNode]
  split <;> rfl

@[simp] theorem size_modifyChildren (f : List NodeId → List NodeId) :
    (t.modifyChildren id f).size = t.size := size_modifyNode ..

@[simp] theorem kind_modifyChildren (f : List NodeId → List NodeId) :
    (t.modifyChildren id f).kind n = t.kind n := by
  simp only [kind, modifyChildren, node_modifyNode]
  split <;> rfl

@[simp] theorem parent_modifyChildren (f : List NodeId → List NodeId) :
    (t.modifyChildren id f).parent n = t.parent n := by
  simp only [parent, modifyChildren, node_modifyNode]
  split <;> rfl

theorem children_modifyChildren (f : List NodeId → List NodeId) :
    (t.modifyChildren id f).children n =
      if n = id ∧ n < t.size then f (t.children n) else t.children n := by
  simp only [children, modifyChildren, node_modifyNode]
  split <;> rfl

/-! ## New nodes -/

@[simp] theorem size_push (k : Kind) : (t.push k).size = t.size + 1 := by simp [size, push]

theorem node_push (k : Kind) :
    (t.push k).node n = if n = t.size then { kind := k } else t.node n := by
  simp only [node, push, size, Array.getD_eq_getD_getElem?, Array.getElem?_push]
  split <;> rfl

/-! ## Nodes outside the table -/

theorem node_eq_absent {t : Tree} {n : NodeId} (h : t.size ≤ n) : t.node n = Node.absent := by
  simp [node, Array.getD_eq_getD_getElem?, Array.getElem?_eq_none h]

theorem kind_of_le {t : Tree} {n : NodeId} (h : t.size ≤ n) : t.kind n = .blank "" := by
  rw [kind, node_eq_absent h, Node.absent]

theorem parent_of_le {t : Tree} {n : NodeId} (h : t.size ≤ n) : t.parent n = none := by
  rw [parent, node_eq_absent h, Node.absent]

theorem children_of_le {t : Tree} {n : NodeId} (h : t.size ≤ n) : t.children n = [] := by
  rw [children, node_eq_absent h, Node.absent]

/-- A node with a parent is in the table. -/
theorem lt_size_of_parent {t : Tree} {n p : NodeId} (h : t.parent n = some p) : n < t.size := by
  refine Nat.lt_of_not_le fun hn => ?_
  simp [parent_of_le hn] at h

/-- A node with a child is in the table. -/
theorem lt_size_of_mem_children {t : Tree} {n c : NodeId} (h : c ∈ t.children n) : n < t.size := by
  refine Nat.lt_of_not_le fun hn => ?_
  simp [children_of_le hn] at h

/-! ## Taking nodes out -/

@[simp] theorem size_detach : (t.detach id).size = t.size := by
  unfold detach
  split <;> simp

@[simp] theorem kind_detach : (t.detach id).kind n = t.kind n := by
  unfold detach
  split <;> simp

theorem parent_detach : (t.detach id).parent n = if n = id then none else t.parent n := by
  unfold detach
  split
  · next h => by_cases hn : n = id <;> simp [hn, h]
  · next p h =>
    have := lt_size_of_parent h
    rw [parent_modifyChildren, parent_setParent]
    by_cases hn : n = id <;> simp [hn, this]

theorem children_detach :
    (t.detach id).children n =
      if t.parent id = some n then (t.children n).filter (· != id) else t.children n := by
  unfold detach
  split
  · next h => simp [h]
  · next p h =>
    rw [children_modifyChildren, h, children_setParent, size_setParent]
    by_cases hp : n = p
    · subst hp
      by_cases hn : n < t.size
      · simp [hn]
      · simp [hn, children_of_le (Nat.le_of_not_lt hn)]
    · simp [hp, Ne.symm hp]

/-! ## Putting nodes in -/

variable (p : NodeId)

@[simp] theorem size_appendChild : (t.appendChild p id).size = t.size := by simp [appendChild]

@[simp] theorem kind_appendChild : (t.appendChild p id).kind n = t.kind n := by simp [appendChild]

theorem parent_appendChild (h : id < t.size) :
    (t.appendChild p id).parent n = if n = id then some p else t.parent n := by
  rw [appendChild, parent_modifyChildren, parent_setParent, parent_detach, size_detach]
  by_cases hn : n = id <;> simp [hn, h]

theorem children_appendChild :
    (t.appendChild p id).children n =
      if n = p ∧ n < t.size then (t.detach id).children n ++ [id]
      else (t.detach id).children n := by
  rw [appendChild, children_modifyChildren, children_setParent, size_setParent, size_detach]

@[simp] theorem size_insertChild (i : Nat) : (t.insertChild p i id).size = t.size := by
  simp [insertChild]

@[simp] theorem kind_insertChild (i : Nat) : (t.insertChild p i id).kind n = t.kind n := by
  simp [insertChild]

theorem parent_insertChild (i : Nat) (h : id < t.size) :
    (t.insertChild p i id).parent n = if n = id then some p else t.parent n := by
  rw [insertChild, parent_modifyChildren, parent_setParent, parent_detach, size_detach]
  by_cases hn : n = id <;> simp [hn, h]

theorem children_insertChild (i : Nat) :
    (t.insertChild p i id).children n =
      if n = p ∧ n < t.size then
        ((t.detach id).children n).take i ++ id :: ((t.detach id).children n).drop i
      else (t.detach id).children n := by
  rw [insertChild, children_modifyChildren, children_setParent, size_setParent, size_detach]

end ComponentAudit.Tree
