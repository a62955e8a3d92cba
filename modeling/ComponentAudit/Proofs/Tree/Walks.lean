import ComponentAudit.Proofs.Tree.Moves

set_option autoImplicit false

/-! # Walks over a tree

A tree is walked upwards along the links to parents (`ancestors`) and downwards along the lists of
children (`descendants`). Both walks are recursions with a bound, the size of the table. In a
well-formed tree no bound is met: the way up from a node is as long as the node is deep, and the way
down goes one level deeper with every step. So they find what the walks without a bound find, a
climb from parent to parent (`climb`) and a descent with a stack of nodes still to visit
(`descend`), which are least fixed points with an answer only where they end.

Main statement: `walks_agree`. What the two walks say about each other rests on the agreement of
children and parents.
-/

namespace ComponentAudit.Tree

/-! ## Without bounds -/

/-- The chain of parents from an optional node on. -/
def climb (t : Tree) (start : Option NodeId) : Option (List NodeId) :=
  match start with
  | none => some []
  | some p => do
    let above ← t |>.climb (t.parent p)
    return p :: above
partial_fixpoint

/-- The nodes met when the top of a stack is visited and its children are put in its place, the
first one on top, until the stack is empty. -/
def descend (t : Tree) (stack : List NodeId) : Option (List NodeId) :=
  match stack with
  | [] => some []
  | n :: rest => do
    let later ← t |>.descend (t.children n ++ rest)
    return n :: later
partial_fixpoint

variable {t : Tree}

namespace WellFormed

variable (ht : t.WellFormed)

include ht

theorem isWithin_iff {n top : NodeId} : t.isWithin n top = true ↔ t.Under n top := by
  rw [isWithin, List.contains_iff_mem, ht.mem_lineage_iff]

theorem attached_iff {n : NodeId} : t.attached n = true ↔ t.Under n t.root := ht.isWithin_iff

/-- **The way up ends**, with the nodes above. -/
theorem climb_eq (n : NodeId) : t.climb (t.parent n) = some (t.ancestors n) := by
  induction hd : t.depth n using Nat.strong_induction_on generalizing n with
  | h k ih =>
    cases hp : t.parent n with
    | none =>
        rw [climb, ancestors, hp, chain_none]
    | some p =>
        have hdepth := ht.depth_of_parent hp
        rw [climb, ih (t.depth p) (by omega) p rfl, ht.ancestors_of_parent hp]
        rfl

/-- What lies under two children of one node lies under one child. -/
theorem eq_of_under_siblings {a c p y : NodeId} (ha : t.parent a = some p)
    (hc : t.parent c = some p) (hya : t.Under y a) (hyc : t.Under y c) : a = c := by
  have hsiblings {a c : NodeId} (ha : t.parent a = some p) (hc : t.parent c = some p)
      (hac : t.Under a c) : a = c := by
    rcases Relation.ReflTransGen.cases_head hac with heq | ⟨q, hq, hqc⟩
    · exact heq
    · obtain rfl : p = q := Option.some.inj (ha.symm.trans hq)
      exact absurd (.single hc) (ht.not_inside_of_under hqc)
  rcases under_total hya hyc with hu | hu
  · exact hsiblings ha hc hu
  · exact (hsiblings hc ha hu).symm

/-! ## The way down -/

theorem preorder_eq_of_le {k m : Nat} {n : NodeId} (hn : n < t.size) (hk : t.size < k + t.depth n)
    (hm : k ≤ m) : t.preorder m n = t.preorder k n := by
  induction k generalizing m n with
  | zero => exact absurd (ht.depth_le_size hn) (by omega)
  | succ k ih =>
      obtain ⟨m, rfl⟩ : ∃ j, m = j + 1 := ⟨m - 1, by omega⟩
      rw [preorder, preorder]
      refine congrArg (n :: ·) (List.flatMap_congr fun c hc => ?_)
      have hp := ht.mem_children_iff.mp hc
      have hdepth := ht.depth_of_parent hp
      exact ih (lt_size_of_parent hp) (by omega) (by omega)

/-- **The bound of a walk down is never met.** -/
theorem preorder_eq_descendants (hpos : 0 < t.size) {m : Nat} (hm : t.size ≤ m) (n : NodeId) :
    t.preorder m n = t.descendants n := by
  by_cases hn : n < t.size
  · have hdepth := t.depth_pos n
    exact ht.preorder_eq_of_le hn (by omega) hm
  · have hchildren : t.children n = [] := children_of_le (Nat.le_of_not_lt hn)
    obtain ⟨m, rfl⟩ : ∃ j, m = j + 1 := ⟨m - 1, by omega⟩
    obtain ⟨k, hk⟩ : ∃ j, t.size = j + 1 := ⟨t.size - 1, by omega⟩
    rw [descendants, hk, preorder, preorder, hchildren]
    rfl

/-- The walk down from a node is the node and the walks down from its children. -/
theorem descendants_eq (hpos : 0 < t.size) (n : NodeId) :
    t.descendants n = n :: (t.children n).flatMap t.descendants := by
  rw [← ht.preorder_eq_descendants hpos (Nat.le_succ t.size) n]
  rfl

/-- The descendants of a node are what lies under it, also for a number without a node. -/
theorem mem_descendants_iff_of_pos (hpos : 0 < t.size) {n m : NodeId} :
    m ∈ t.descendants n ↔ t.Under m n := by
  by_cases hn : n < t.size
  · exact ht.mem_descendants_iff hn
  · have hchildren : t.children n = [] := children_of_le (Nat.le_of_not_lt hn)
    rw [ht.descendants_eq hpos, hchildren, List.flatMap_nil, List.mem_singleton]
    constructor
    · rintro rfl
      exact .refl
    · intro h
      rcases Relation.ReflTransGen.cases_tail h with heq | ⟨c, -, hc⟩
      · exact heq.symm
      · exact absurd (ht.lt_size hc) hn

theorem nodup_preorder (k : Nat) (n : NodeId) : (t.preorder k n).Nodup := by
  induction k generalizing n with
  | zero => exact List.nodup_nil
  | succ k ih =>
      refine List.nodup_cons.mpr ⟨fun hmem => ?_, ?_⟩
      · -- a node is not met below one of its children
        obtain ⟨c, hc, hn⟩ := List.mem_flatMap.mp hmem
        exact ht.not_inside_of_under (ht.under_of_mem_preorder hn) (ht.inside_of_child hc)
      · -- what is met below two children lies under both
        refine List.nodup_flatMap.mpr ⟨fun c _ => ih c, ?_⟩
        refine (ht.nodup_children n).imp_of_mem fun {c d} hc hd hne => ?_
        intro m hmc hmd
        exact hne (ht.eq_of_under_siblings (ht.mem_children_iff.mp hc) (ht.mem_children_iff.mp hd)
          (ht.under_of_mem_preorder hmc) (ht.under_of_mem_preorder hmd))

/-- **The descent with a stack ends**, with the walks down from its nodes. -/
theorem descend_eq (hpos : 0 < t.size) (stack : List NodeId) :
    t.descend stack = some (stack.flatMap t.descendants) := by
  -- one node fewer is left to meet after every step
  induction hk : (stack.flatMap t.descendants).length using Nat.strong_induction_on
    generalizing stack with
  | h k ih =>
    cases stack with
    | nil => rw [descend, List.flatMap_nil]
    | cons n rest =>
        have hsplit : (n :: rest).flatMap t.descendants =
            n :: (t.children n ++ rest).flatMap t.descendants := by
          rw [List.flatMap_cons, List.flatMap_append, ht.descendants_eq hpos n, List.cons_append]
        rw [hsplit, List.length_cons] at hk
        rw [descend, ih _ (by omega) (t.children n ++ rest) rfl, hsplit]
        rfl

/-! ## The order of a walk down -/

theorem descendants_sublist (hpos : 0 < t.size) {m n : NodeId} (h : t.Under m n) :
    (t.descendants m).Sublist (t.descendants n) := by
  induction h with
  | refl => exact List.Sublist.refl _
  | @tail p n _ hp ih =>
      refine ih.trans ?_
      have hchild : [p].Sublist (t.children n) :=
        List.singleton_sublist.mpr (ht.mem_children_iff.mpr hp)
      have hbelow := hchild.flatMap t.descendants
      rw [List.flatMap_singleton] at hbelow
      rw [ht.descendants_eq hpos n]
      exact hbelow.cons n

/-- A node comes before what lies below it. -/
theorem sublist_of_inside (hpos : 0 < t.size) {n x y : NodeId} (hx : t.Under x n)
    (hy : t.Inside y x) : [x, y].Sublist (t.descendants n) := by
  refine List.Sublist.trans ?_ (ht.descendants_sublist hpos hx)
  have hxlt : x < t.size := by
    obtain ⟨p, hp, hpx⟩ := Relation.TransGen.tail'_iff.mp hy
    exact ht.lt_size hpx
  have hmem := (ht.mem_descendants_iff hxlt).mpr hy.under
  rw [ht.descendants_eq hpos x] at hmem ⊢
  have hne : y ≠ x := fun heq => ht.acyclic x (heq ▸ hy)
  exact (List.singleton_sublist.mpr ((List.mem_cons.mp hmem).resolve_left hne)).cons_cons x

/-- What lies under a child comes before what lies under a later child of the same node. -/
theorem sublist_of_siblings (hpos : 0 < t.size) {n p c d x y : NodeId} (hp : t.Under p n)
    (hcd : [c, d].Sublist (t.children p)) (hx : x ∈ t.descendants c) (hy : y ∈ t.descendants d) :
    [x, y].Sublist (t.descendants n) := by
  refine List.Sublist.trans ?_ (ht.descendants_sublist hpos hp)
  rw [ht.descendants_eq hpos p]
  refine List.Sublist.cons p ?_
  have hpair : [x, y].Sublist (t.descendants c ++ t.descendants d) :=
    (List.singleton_sublist.mpr hx).append (List.singleton_sublist.mpr hy)
  have hchildren := hcd.flatMap t.descendants
  rw [List.flatMap_cons, List.flatMap_singleton] at hchildren
  exact hpair.trans hchildren

end WellFormed

/-- **The walks agree.** In a well-formed tree the way up and the descent with a stack end with
`ancestors` and `descendants`. The walk down from a node meets exactly the nodes that lie within it
by the walk up, each of them once, every node before what lies below it and all of a child before
all of a later child. A node is attached if and only if the walk down from the root meets it. The
common ancestor of two nodes is above both, every node above both is above it, and there is none if
and only if no node is above both. -/
theorem walks_agree (ht : t.WellFormed) {n : NodeId} (hn : n < t.size) (a b : NodeId) :
    (t.climb (t.parent n) = some (t.ancestors n) ∧ t.descend [n] = some (t.descendants n)) ∧
      ((t.descendants n).Nodup ∧ ∀ m, m ∈ t.descendants n ↔ t.isWithin m n = true) ∧
      (∀ x ∈ t.descendants n, ∀ y, t.isWithin y x = true → y ≠ x →
        [x, y].Sublist (t.descendants n)) ∧
      (∀ p ∈ t.descendants n, ∀ c d, [c, d].Sublist (t.children p) →
        ∀ x ∈ t.descendants c, ∀ y ∈ t.descendants d, [x, y].Sublist (t.descendants n)) ∧
      (t.attached n = true ↔ n ∈ t.descendants t.root) ∧
      (∀ c, t.commonAncestor? a b = some c ↔ t.isWithin a c = true ∧ t.isWithin b c = true ∧
        ∀ d, t.isWithin a d = true → t.isWithin b d = true → t.isWithin c d = true) ∧
      (t.commonAncestor? a b = none ↔ ¬ ∃ d, t.isWithin a d = true ∧ t.isWithin b d = true) := by
  have hpos : 0 < t.size := Nat.lt_of_le_of_lt (Nat.zero_le n) hn
  refine ⟨⟨ht.climb_eq n, ?_⟩, ⟨ht.nodup_preorder _ n, fun m => ?_⟩, ?_, ?_, ?_, fun c => ?_, ?_⟩
  · rw [ht.descend_eq hpos, List.flatMap_singleton]
  · rw [ht.isWithin_iff, ht.mem_descendants_iff hn]
  · intro x hx y hy hne
    have hinside := (under_iff_eq_or_inside.mp (ht.isWithin_iff.mp hy)).resolve_left (Ne.symm hne)
    exact ht.sublist_of_inside hpos ((ht.mem_descendants_iff hn).mp hx) hinside
  · intro p hp c d hcd x hx y hy
    exact ht.sublist_of_siblings hpos ((ht.mem_descendants_iff hn).mp hp) hcd hx hy
  · rw [ht.attached_iff, ht.mem_descendants_iff_of_pos hpos]
  · simp only [ht.isWithin_iff]
    exact ht.commonAncestor?_eq_some_iff
  · simp only [ht.isWithin_iff, not_exists, not_and]
    exact ht.commonAncestor?_eq_none_iff

/-- A file with two blocks, and a third one that was taken out. -/
def blocks : Tree :=
  { nodes := #[{ kind := .file "F", children := [4, 1] },
      { kind := .block, parent := some 0, children := [2, 3] },
      { kind := .reference "a", parent := some 1 }, { kind := .reference "b", parent := some 1 },
      { kind := .block, parent := some 0, children := [5] },
      { kind := .reference "c", parent := some 4 }, { kind := .block, children := [7] },
      { kind := .reference "d", parent := some 6 }]
    root := 0 }

theorem walks_agree_blocks :
    blocks.WellFormed ∧ blocks.descend [0] = some [0, 4, 5, 1, 2, 3] ∧
      [5, 3].Sublist (blocks.descendants 0) ∧ (3 ∈ blocks.descendants 1) ∧
      blocks.commonAncestor? 2 3 = some 1 ∧ blocks.isWithin 2 1 = true ∧
      blocks.commonAncestor? 5 7 = none ∧
      ¬ ∃ d, blocks.isWithin 5 d = true ∧ blocks.isWithin 7 d = true := by
  have ht : blocks.WellFormed := by decide +kernel
  have hvalues : blocks.descendants 0 = [0, 4, 5, 1, 2, 3] ∧ blocks.commonAncestor? 2 3 = some 1 ∧
      blocks.commonAncestor? 5 7 = none ∧ blocks.isWithin 3 1 = true := by decide +kernel
  obtain ⟨hwalk, hmeet, hnone, hwithin⟩ := hvalues
  have hsize : 0 < blocks.size ∧ 1 < blocks.size := by decide
  obtain ⟨⟨-, hdescend⟩, -, -, hsiblings, -, -, hapart⟩ := walks_agree ht hsize.1 5 7
  obtain ⟨-, ⟨-, hbelow⟩, -, -, -, habove, -⟩ := walks_agree ht hsize.2 2 3
  refine ⟨ht, hwalk ▸ hdescend, ?_, (hbelow 3).mpr hwithin, hmeet, ((habove 1).mp hmeet).1, hnone,
    hapart.mp hnone⟩
  exact hsiblings 0 (by decide) 4 1 (by decide) 5 (by decide) 3 (by decide)

end ComponentAudit.Tree
