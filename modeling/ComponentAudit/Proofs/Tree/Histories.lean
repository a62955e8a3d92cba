import ComponentAudit.Proofs.Edit.Frame

set_option autoImplicit false

/-! # Trees with a history

Whatever is done to a file, one operation after the other and in any order, the lists of children
and the links to parents go on telling the same. The operations build on each other: putting a node
beside an anchor takes it out first and then looks for the anchor, and replacing a node puts the new
one beside it and then takes it out. Each of them comes down to taking nodes out and hanging them
elsewhere (`insertBeside_cases`).

A history that never hangs a node below itself never closes a circle, so that the way up from every
node ends.

Main statement: `links_agree`.
-/

namespace ComponentAudit.Tree

/-- A call of an operation that makes or moves nodes. -/
inductive Operation where
  | push (kind : Kind)
  /-- A new node with the given children. -/
  | branch (kind : Kind) (ids : List NodeId)
  | appendChild (parent id : NodeId)
  | insertChild (parent : NodeId) (index : Nat) (id : NodeId)
  | insertAfter (anchor id : NodeId)
  | insertBefore (anchor id : NodeId)
  | detach (id : NodeId)
  | replace (old new : NodeId)
deriving DecidableEq

namespace Operation

/-- The nodes that an operation is called with. -/
def subjects : Operation → List NodeId
  | push _ => []
  | branch _ ids => ids
  | appendChild parent id | insertChild parent _ id => [parent, id]
  | insertAfter anchor id | insertBefore anchor id | replace anchor id => [anchor, id]
  | detach id => [id]

/-- The tree after an operation. -/
def perform (t : Tree) : Operation → Tree
  | push kind => t.push kind
  | branch kind ids => ((Draft.branch kind ids).run t).2
  | appendChild parent id => t.appendChild parent id
  | insertChild parent index id => t.insertChild parent index id
  | insertAfter anchor id => (t.insertAfter anchor id).2
  | insertBefore anchor id => (t.insertBefore anchor id).2
  | detach id => t.detach id
  | replace old new => (t.replace old new).2

/-- The nodes that an operation hangs somewhere, each with its new parent. A node is not put beside
itself. -/
def placements (t : Tree) : Operation → List (NodeId × NodeId)
  | branch _ ids => ids.map fun id => (id, t.size)
  | appendChild parent id | insertChild parent _ id => [(id, parent)]
  | insertAfter anchor id | insertBefore anchor id | replace anchor id =>
    if anchor = id then [] else (t.parent anchor).toList.map fun parent => (id, parent)
  | push _ | detach _ => []

end Operation

/-- The tree after operations, made in order. -/
def performAll (t : Tree) (ops : List Operation) : Tree := ops.foldl Operation.perform t

/-- Whether operations are called with nodes that are in the table by then. -/
def Proper (t : Tree) : List Operation → Prop
  | [] => True
  | op :: ops => (∀ n ∈ op.subjects, n < t.size) ∧ (op.perform t).Proper ops

/-- Whether no operation hangs a node below itself or below what lies under it. -/
def Forward (t : Tree) : List Operation → Prop
  | [] => True
  | op :: ops => (∀ x ∈ op.placements t, t.isWithin x.2 x.1 = false) ∧ (op.perform t).Forward ops

/-- The node so many links above another one. -/
def above? (t : Tree) : Nat → NodeId → Option NodeId
  | 0, n => some n
  | k + 1, n => (t.parent n).bind (t.above? k)

instance decidableProper : (t : Tree) → (ops : List Operation) → Decidable (t.Proper ops)
  | _, [] => isTrue trivial
  | t, op :: ops =>
    haveI := decidableProper (op.perform t) ops
    inferInstanceAs (Decidable (_ ∧ _))

instance decidableForward : (t : Tree) → (ops : List Operation) → Decidable (t.Forward ops)
  | _, [] => isTrue trivial
  | t, op :: ops =>
    haveI := decidableForward (op.perform t) ops
    inferInstanceAs (Decidable (_ ∧ _))

variable {t : Tree}

/-! ## Composed operations -/

/-- Putting a node beside an anchor leaves the tree alone, takes the node out, or takes it out and
hangs it below the parent of the anchor. -/
theorem insertBeside_cases (t : Tree) (anchor id : NodeId) (offset : Nat) :
    (t.insertBeside anchor id offset).2 = t ∨
      (t.insertBeside anchor id offset).2 = t.detach id ∨
      ∃ p i, t.parent anchor = some p ∧ anchor ≠ id ∧
        (t.insertBeside anchor id offset).2 = (t.detach id).insertChild p i id := by
  unfold insertBeside
  cases hp : t.parent anchor with
  | none => exact .inl rfl
  | some p =>
      dsimp only
      cases hi : (t.detach id).position? anchor with
      | none => exact .inr (.inl rfl)
      | some i =>
          refine .inr (.inr ⟨p, i + offset, rfl, ?_, rfl⟩)
          -- a node that was taken out has no position
          rintro rfl
          simp [position?, parent_detach] at hi

/-- Replacing a node by another one puts that one before it, and may then take it out. -/
theorem replace_cases (t : Tree) (old new : NodeId) :
    (t.replace old new).2 = t ∨
      old ≠ new ∧ ((t.replace old new).2 = (t.insertBefore old new).2 ∨
        (t.replace old new).2 = (t.insertBefore old new).2.detach old) := by
  unfold replace
  split
  · exact .inl rfl
  · next hne =>
    rcases t.insertBefore old new with ⟨done, u⟩
    cases done
    · exact .inr ⟨hne, .inl rfl⟩
    · exact .inr ⟨hne, .inr rfl⟩

/-! ## One step

Two properties are followed through a history, the agreement of the links and well-formedness. They
differ only in where a node may be hung. -/

/-- What a property needs to survive every operation, when `Free t id p` says that the node `id` may
be hung below `p`. -/
structure Survives (P : Tree → Prop) (Free : Tree → NodeId → NodeId → Prop) : Prop where
  lt_size {t : Tree} {c p : NodeId} : P t → t.parent c = some p → p < t.size
  push {t : Tree} : P t → ∀ kind, P (t.push kind)
  detach {t : Tree} : P t → ∀ id, P (t.detach id)
  appendChild {t : Tree} {id p : NodeId} : P t → id < t.size → p < t.size → Free t id p →
    P (t.appendChild p id)
  insertChild {t : Tree} {id p : NodeId} : P t → id < t.size → p < t.size → Free t id p →
    ∀ i, P (t.insertChild p i id)
  /-- A node may still be hung where it could be hung after it has been taken out. -/
  free_detach {t : Tree} {id p : NodeId} : Free t id p → Free (t.detach id) id p
  /-- Any other node may be hung below one without a parent. -/
  free_top {t : Tree} {id p : NodeId} : t.parent p = none → id ≠ p → Free t id p

namespace Survives

variable {P : Tree → Prop} {Free : Tree → NodeId → NodeId → Prop} (hs : Survives P Free) (ht : P t)

include hs ht

theorem insertBeside {anchor id : NodeId} (hid : id < t.size) (offset : Nat)
    (h : anchor ≠ id → ∀ p, t.parent anchor = some p → Free t id p) :
    P (t.insertBeside anchor id offset).2 := by
  rcases t.insertBeside_cases anchor id offset with heq | heq | ⟨p, i, hp, hne, heq⟩
  · rwa [heq]
  · rw [heq]
    exact hs.detach ht id
  · rw [heq]
    exact hs.insertChild (hs.detach ht id) (by simpa using hid) (by simpa using hs.lt_size ht hp)
      (hs.free_detach (h hne p hp)) i

theorem replace {old new : NodeId} (hnew : new < t.size)
    (h : old ≠ new → ∀ p, t.parent old = some p → Free t new p) : P (t.replace old new).2 := by
  have hbefore : P (t.insertBefore old new).2 := hs.insertBeside ht hnew 0 h
  rcases t.replace_cases old new with heq | ⟨-, heq | heq⟩
  · rwa [heq]
  · rwa [heq]
  · rw [heq]
    exact hs.detach hbefore old

/-- A node without a parent can adopt any other nodes. -/
theorem adopt {parent : NodeId} {ids : List NodeId} (hparent : parent < t.size)
    (hfree : t.parent parent = none) (hids : ∀ n ∈ ids, n < t.size ∧ n ≠ parent) :
    P (ids.foldl (·.appendChild parent) t) := by
  induction ids generalizing t with
  | nil => exact ht
  | cons id ids ih =>
      obtain ⟨hid, hne⟩ := hids id List.mem_cons_self
      refine ih (hs.appendChild ht hid hparent (hs.free_top hfree hne)) (by simpa using hparent) ?_
        fun n hn => ?_
      · rw [parent_appendChild _ _ _ _ hid, if_neg hne.symm, hfree]
      · simpa using hids n (List.mem_cons_of_mem _ hn)

/-- **One operation** on nodes in the table, each of which may be hung where it is hung. -/
theorem perform {op : Operation} (h : ∀ n ∈ op.subjects, n < t.size)
    (hfree : ∀ x ∈ op.placements t, Free t x.1 x.2) : P (op.perform t) := by
  have hbeside {anchor id : NodeId} (hplace : op.placements t = if anchor = id then []
      else (t.parent anchor).toList.map fun parent => (id, parent)) (hne : anchor ≠ id)
      (p : NodeId) (hp : t.parent anchor = some p) : Free t id p :=
    hfree (id, p) (by simp [hplace, hne, hp])
  cases op with
  | push kind => exact hs.push ht kind
  | branch kind ids =>
      have hnone : t.parent t.size = none := parent_of_le (Nat.le_refl _)
      refine hs.adopt (hs.push ht kind) (by simp) (by rw [parent_push, hnone]) fun n hn => ?_
      rw [size_push]
      exact ⟨Nat.lt_succ_of_lt (h n hn), Nat.ne_of_lt (h n hn)⟩
  | appendChild parent id =>
      exact hs.appendChild ht (h id (by simp [Operation.subjects]))
        (h parent (by simp [Operation.subjects]))
        (hfree (id, parent) (by simp [Operation.placements]))
  | insertChild parent index id =>
      exact hs.insertChild ht (h id (by simp [Operation.subjects]))
        (h parent (by simp [Operation.subjects]))
        (hfree (id, parent) (by simp [Operation.placements])) index
  | insertAfter anchor id =>
      exact hs.insertBeside ht (h id (by simp [Operation.subjects])) 1 (hbeside rfl)
  | insertBefore anchor id =>
      exact hs.insertBeside ht (h id (by simp [Operation.subjects])) 0 (hbeside rfl)
  | detach id => exact hs.detach ht id
  | replace old new => exact hs.replace ht (h new (by simp [Operation.subjects])) (hbeside rfl)

end Survives

/-- The links agree wherever nodes are hung, below themselves included. -/
theorem linked_survives : Survives Linked fun _ _ _ => True where
  lt_size hl hp := lt_size_of_mem_children (hl.mem_children_iff.mpr hp)
  push hl kind := hl.push kind
  detach hl id := hl.detach id
  appendChild hl hid hp _ := hl.appendChild hid hp
  insertChild hl hid hp _ i := hl.insertChild hid hp i
  free_detach _ := trivial
  free_top _ _ := trivial

/-- A tree stays well formed as long as no node is hung below itself. -/
theorem wellFormed_survives : Survives WellFormed fun t id p => ¬ t.Under p id where
  lt_size ht hp := ht.lt_size hp
  push ht kind := ht.push kind
  detach ht id := ht.detach id
  appendChild ht hid hp hfree := ht.appendChild hid hp hfree
  insertChild ht hid hp hfree i := ht.insertChild hid hp hfree i
  free_detach hfree hunder := hfree (under_of_detach hunder)
  free_top hp hne hunder := hne (eq_of_under_of_parent_none hp hunder).symm

/-! ## All steps -/

theorem Linked.performAll {ops : List Operation} (hl : t.Linked) (h : t.Proper ops) :
    (t.performAll ops).Linked := by
  induction ops generalizing t with
  | nil => exact hl
  | cons op ops ih => exact ih (linked_survives.perform hl h.1 fun _ _ => trivial) h.2

theorem WellFormed.isWithin_eq_false_iff (ht : t.WellFormed) {n top : NodeId} :
    t.isWithin n top = false ↔ ¬ t.Under n top := by
  rw [← ht.isWithin_iff, Bool.not_eq_true]

theorem WellFormed.performAll {ops : List Operation} (ht : t.WellFormed) (h : t.Proper ops)
    (hforward : t.Forward ops) : (t.performAll ops).WellFormed := by
  induction ops generalizing t with
  | nil => exact ht
  | cons op ops ih =>
      refine ih (wellFormed_survives.perform ht h.1 fun x hx => ?_) h.2 hforward.2
      exact ht.isWithin_eq_false_iff.mp (hforward.1 x hx)

theorem wellFormed_ofFile (name : String) : (ofFile name).WellFormed := by
  have hchildren (n : NodeId) : (ofFile name).children n = [] := by
    cases n <;> rfl
  have hparent (n : NodeId) : (ofFile name).parent n = none := by
    cases n <;> rfl
  refine ⟨by simp [hchildren, hparent], by simp [hchildren], fun n h => ?_⟩
  obtain ⟨p, hp, -⟩ := h.exists_parent
  rw [hparent] at hp
  cases hp

/-- The way up from a node is as long as the node is deep. -/
theorem WellFormed.above?_depth (ht : t.WellFormed) (n : NodeId) :
    t.above? (t.depth n) n = none := by
  induction hd : t.depth n generalizing n with
  | zero => exact absurd hd (Nat.ne_of_gt (depth_pos n))
  | succ k ih =>
      cases hp : t.parent n with
      | none => simp [above?, hp]
      | some p =>
          have hdepth := ht.depth_of_parent hp
          simp only [above?, hp, Option.bind_some]
          exact ih p (by omega)

/-- **Children and parents agree after every history.** Whatever operations are made on a new file,
with nodes that are in the table, a node is among the children of another one if and only if that
one is its parent, and then it is listed once. When no operation hangs a node below itself, the way
up from every node ends. -/
theorem links_agree (name : String) {ops : List Operation} (h : (ofFile name).Proper ops) :
    let t := (ofFile name).performAll ops
    (∀ p c, (c ∈ t.children p ↔ t.parent c = some p) ∧
      (t.parent c = some p → (t.children p).count c = 1)) ∧
    ((ofFile name).Forward ops → ∀ n, ∃ k, t.above? k n = none) := by
  intro t
  have hl : t.Linked := (wellFormed_ofFile name).linked.performAll h
  refine ⟨fun p c => ⟨hl.mem_children_iff, fun hp => ?_⟩, fun hforward n => ?_⟩
  · exact List.count_eq_one_of_mem (hl.nodup_children p) (hl.mem_children_iff.mpr hp)
  · have ht : t.WellFormed := (wellFormed_ofFile name).performAll h hforward
    exact ⟨t.depth n, ht.above?_depth n⟩

/-- A history with a child given twice, a move among siblings, a replacement, a node put beside
itself and one put back. -/
def shuffle : List Operation :=
  [.push (.reference "a"), .push (.reference "b"), .branch .block [1, 2, 1], .appendChild 0 3,
    .insertAfter 1 2, .insertBefore 1 2, .push (.reference "c"), .replace 1 4, .insertChild 0 7 1,
    .insertBefore 4 4, .detach 2, .insertBefore 3 2]

theorem links_agree_shuffle :
    let t := (ofFile "F").performAll shuffle
    (ofFile "F").Proper shuffle ∧ (ofFile "F").Forward shuffle ∧ t.children 0 = [2, 3, 1] ∧
      t.children 3 = [] ∧ t.parent 4 = none ∧ (t.children 0).count 2 = 1 ∧
      ∃ k, t.above? k 2 = none := by
  intro t
  have hproper : (ofFile "F").Proper shuffle := by decide +kernel
  have hforward : (ofFile "F").Forward shuffle := by decide +kernel
  have hlinks : t.children 0 = [2, 3, 1] ∧ t.children 3 = [] ∧ t.parent 4 = none ∧
      t.parent 2 = some 0 := by decide +kernel
  obtain ⟨hroot, hblock, hfree, hparent⟩ := hlinks
  obtain ⟨hagree, hends⟩ := links_agree "F" hproper
  exact ⟨hproper, hforward, hroot, hblock, hfree, (hagree 0 2).2 hparent, hends hforward 2⟩

end ComponentAudit.Tree
