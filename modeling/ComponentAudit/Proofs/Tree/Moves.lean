import ComponentAudit.Proofs.Tree.WellFormed

set_option autoImplicit false

/-! # Moves keep trees well formed

Every operation that changes a tree keeps children and parents in agreement. A move can close a
circle only when it hangs a node below itself.

Main statement: `WellFormed.hang`, on which the moves rest: hanging a node elsewhere keeps a tree
well formed when the new parent does not lie under the node.
-/

namespace ComponentAudit.Tree

variable {t t' : Tree}

theorem under_iff_eq_or_inside {a b : NodeId} : t.Under a b ↔ b = a ∨ t.Inside a b :=
  Relation.reflTransGen_iff_eq_or_transGen

namespace Inside

theorem under {a b : NodeId} (h : t.Inside a b) : t.Under a b := Relation.TransGen.to_reflTransGen h

theorem mono (h : ∀ c p, t.parent c = some p → t'.parent c = some p) {a b : NodeId}
    (hab : t.Inside a b) : t'.Inside a b :=
  Relation.TransGen.mono h a b hab

/-- A node inside another one has a parent, which lies under the other one. -/
theorem exists_parent {a b : NodeId} (h : t.Inside a b) :
    ∃ p, t.parent a = some p ∧ t.Under p b :=
  Relation.TransGen.head'_iff.mp h

theorem lt_size {a b : NodeId} (h : t.Inside a b) : a < t.size := by
  obtain ⟨p, hp, -⟩ := h.exists_parent
  exact lt_size_of_parent hp

end Inside

/-- Two nodes above the same one are above each other. -/
theorem under_total {n a b : NodeId} (ha : t.Under n a) (hb : t.Under n b) :
    t.Under a b ∨ t.Under b a := by
  refine Relation.ReflTransGen.total_of_right_unique ?_ ha hb
  intro x y z hy hz
  exact Option.some.inj (hy.symm.trans hz)

theorem Linked.congr (hl : t.Linked) (hp : ∀ n, t'.parent n = t.parent n)
    (hc : ∀ n, t'.children n = t.children n) : t'.Linked where
  mem_children_iff := by
    intro p c
    rw [hp, hc]
    exact hl.mem_children_iff
  nodup_children := by
    intro p
    rw [hc]
    exact hl.nodup_children p

namespace WellFormed

variable (ht : t.WellFormed)

include ht

theorem not_inside_of_under {a b : NodeId} (h : t.Under a b) : ¬ t.Inside b a :=
  fun h' => ht.acyclic a (Relation.TransGen.trans_right h h')

theorem depth_le_of_under {a b : NodeId} (h : t.Under a b) : t.depth b ≤ t.depth a := by
  rcases under_iff_eq_or_inside.mp h with rfl | h
  · exact Nat.le_refl _
  · exact Nat.le_of_lt (ht.depth_lt_of_inside h)

theorem under_of_mem_preorder {k : Nat} {n m : NodeId} (h : m ∈ t.preorder k n) :
    t.Under m n := by
  induction k generalizing n with
  | zero => cases h
  | succ k ih =>
      rcases List.mem_cons.mp h with rfl | h
      · exact .refl
      · obtain ⟨c, hc, hm⟩ := List.mem_flatMap.mp h
        exact Relation.ReflTransGen.tail (ih hm) (ht.mem_children_iff.mp hc)

/-- A walk down that may go deep enough meets everything below. -/
theorem mem_preorder {k : Nat} {n m : NodeId} (h : t.Under m n) (hk : t.depth m < t.depth n + k) :
    m ∈ t.preorder k n := by
  induction k generalizing n with
  | zero => exact absurd (ht.depth_le_of_under h) (Nat.not_le_of_lt hk)
  | succ k ih =>
      rcases Relation.ReflTransGen.cases_tail h with rfl | ⟨c, hmc, hc⟩
      · exact List.mem_cons_self
      · have hdepth := ht.depth_of_parent hc
        refine List.mem_cons_of_mem _ (List.mem_flatMap.mpr ⟨c, ht.mem_children_iff.mpr hc, ?_⟩)
        exact ih hmc (by omega)

/-- **The descendants of a node are what lies under it.** -/
theorem mem_descendants_iff {n m : NodeId} (hn : n < t.size) :
    m ∈ t.descendants n ↔ t.Under m n := by
  refine ⟨ht.under_of_mem_preorder, fun h => ht.mem_preorder h ?_⟩
  have hm : m < t.size := by
    rcases under_iff_eq_or_inside.mp h with rfl | h
    · exact hn
    · exact h.lt_size
  have := ht.depth_le_size hm
  have := depth_pos (t := t) n
  omega

/-- Well-formedness depends on the links alone. -/
theorem congr (hp : ∀ n, t'.parent n = t.parent n) (hc : ∀ n, t'.children n = t.children n) :
    t'.WellFormed :=
  (ht.linked.congr hp hc).wellFormed fun n h =>
    ht.acyclic n (h.mono fun a _ hab => (hp a).symm.trans hab)

theorem setKind (n : NodeId) (k : Kind) : (t.setKind n k).WellFormed :=
  ht.congr (fun _ => parent_setKind ..) (fun _ => children_setKind ..)

end WellFormed

@[simp] theorem parent_push (t : Tree) (k : Kind) (n : NodeId) :
    (t.push k).parent n = t.parent n := by
  rw [parent, node_push]
  split
  · next h => rw [parent_of_le (Nat.le_of_eq h.symm)]
  · rfl

@[simp] theorem children_push (t : Tree) (k : Kind) (n : NodeId) :
    (t.push k).children n = t.children n := by
  rw [children, node_push]
  split
  · next h => rw [children_of_le (Nat.le_of_eq h.symm)]
  · rfl

theorem kind_push (t : Tree) (k : Kind) (n : NodeId) :
    (t.push k).kind n = if n = t.size then k else t.kind n := by
  rw [kind, node_push]
  split <;> rfl

theorem parent_of_detach {n c p : NodeId} (h : (t.detach n).parent c = some p) :
    t.parent c = some p := by
  rw [parent_detach] at h
  split at h
  · cases h
  · exact h

theorem under_of_detach {n a b : NodeId} (h : (t.detach n).Under a b) : t.Under a b :=
  Relation.ReflTransGen.mono (fun _ _ => parent_of_detach) a b h

/-! ## Hanging a node elsewhere -/

namespace Linked

variable (hl : t.Linked)

include hl

theorem push (k : Kind) : (t.push k).Linked :=
  hl.congr (fun _ => parent_push ..) (fun _ => children_push ..)

theorem children_detach (n p : NodeId) :
    (t.detach n).children p = (t.children p).filter (· != n) := by
  rw [Tree.children_detach]
  split
  · rfl
  · next hp =>
    refine (List.filter_eq_self.mpr fun c hc => ?_).symm
    have : c ≠ n := fun hcn => hp (hcn ▸ hl.mem_children_iff.mp hc)
    simpa using this

theorem detach (n : NodeId) : (t.detach n).Linked where
  mem_children_iff := by
    intro p c
    rw [hl.children_detach, parent_detach, List.mem_filter, hl.mem_children_iff]
    by_cases hc : c = n <;> simp [hc]
  nodup_children := by
    intro p
    rw [hl.children_detach]
    exact (hl.nodup_children p).filter _

/-- A node may be put anywhere among the children of any node, itself included. -/
theorem hang {n p : NodeId} (hparent : ∀ x, t'.parent x = if x = n then some p else t.parent x)
    (hchildren : ∀ x, List.Perm (t'.children x)
      (if x = p then n :: (t.detach n).children x else (t.detach n).children x)) :
    t'.Linked where
  mem_children_iff := by
    intro x c
    rw [(hchildren x).mem_iff, hparent]
    have hdetach := (hl.detach n).mem_children_iff (p := x) (c := c)
    rw [parent_detach] at hdetach
    by_cases hx : x = p
    · subst hx
      rw [if_pos rfl, List.mem_cons, hdetach]
      by_cases hc : c = n <;> simp [hc]
    · rw [if_neg hx, hdetach]
      by_cases hc : c = n
      · simp [hc, Ne.symm hx]
      · simp [hc]
  nodup_children := by
    intro x
    refine (hchildren x).nodup_iff.mpr ?_
    split
    · refine List.nodup_cons.mpr ⟨?_, (hl.detach n).nodup_children x⟩
      rw [hl.children_detach]
      simp
    · exact (hl.detach n).nodup_children x

end Linked

@[simp] theorem root_detach (t : Tree) (n : NodeId) : (t.detach n).root = t.root := by
  unfold detach
  split <;> rfl

@[simp] theorem root_insertChild (t : Tree) (p n : NodeId) (i : Nat) :
    (t.insertChild p i n).root = t.root := t.root_detach n

@[simp] theorem root_appendChild (t : Tree) (p n : NodeId) :
    (t.appendChild p n).root = t.root := t.root_detach n

theorem detach_of_parent_none {n : NodeId} (h : t.parent n = none) : t.detach n = t := by
  rw [detach, h]

/-- Hanging a node that hangs nowhere changes the children of one node only. -/
theorem children_insertChild_of_free {n p : NodeId} (hp : p < t.size) (hfree : t.parent n = none)
    (i : Nat) (x : NodeId) : (t.insertChild p i n).children x =
      if x = p then (t.children x).take i ++ n :: (t.children x).drop i else t.children x := by
  rw [children_insertChild, detach_of_parent_none hfree]
  by_cases hx : x = p
  · rw [if_pos ⟨hx, hx ▸ hp⟩, if_pos hx]
  · rw [if_neg (fun h => hx h.1), if_neg hx]

theorem perm_children_insertChild {n p : NodeId} (hp : p < t.size) (i : Nat) (x : NodeId) :
    List.Perm ((t.insertChild p i n).children x)
      (if x = p then n :: (t.detach n).children x else (t.detach n).children x) := by
  rw [children_insertChild]
  by_cases hx : x = p
  · subst hx
    rw [if_pos ⟨rfl, hp⟩, if_pos rfl]
    refine List.perm_middle.trans (List.Perm.cons _ ?_)
    rw [List.take_append_drop]
  · rw [if_neg (fun h => hx h.1), if_neg hx]

theorem perm_children_appendChild {n p : NodeId} (hp : p < t.size) (x : NodeId) :
    List.Perm ((t.appendChild p n).children x)
      (if x = p then n :: (t.detach n).children x else (t.detach n).children x) := by
  rw [children_appendChild]
  by_cases hx : x = p
  · subst hx
    rw [if_pos ⟨rfl, hp⟩, if_pos rfl]
    exact List.perm_append_singleton _ _
  · rw [if_neg (fun h => hx h.1), if_neg hx]

theorem Linked.insertChild (hl : t.Linked) {n p : NodeId} (hn : n < t.size) (hp : p < t.size)
    (i : Nat) : (t.insertChild p i n).Linked :=
  hl.hang (fun _ => parent_insertChild _ _ _ _ i hn) (perm_children_insertChild hp i)

theorem Linked.appendChild (hl : t.Linked) {n p : NodeId} (hn : n < t.size) (hp : p < t.size) :
    (t.appendChild p n).Linked :=
  hl.hang (fun _ => parent_appendChild _ _ _ _ hn) (perm_children_appendChild hp)

namespace WellFormed

variable (ht : t.WellFormed)

include ht

theorem push (k : Kind) : (t.push k).WellFormed :=
  ht.congr (fun _ => parent_push ..) (fun _ => children_push ..)

theorem children_detach (n p : NodeId) :
    (t.detach n).children p = (t.children p).filter (· != n) :=
  ht.linked.children_detach n p

theorem detach (n : NodeId) : (t.detach n).WellFormed :=
  (ht.linked.detach n).wellFormed fun a h => ht.acyclic a (h.mono fun _ _ => parent_of_detach)

/-- **Hanging a node elsewhere.** When the new parent does not lie under the node, the tree stays
well formed wherever the node is put among the children of the parent. -/
theorem hang {n p : NodeId} (hnp : ¬ t.Under p n)
    (hparent : ∀ x, t'.parent x = if x = n then some p else t.parent x)
    (hchildren : ∀ x, List.Perm (t'.children x)
      (if x = p then n :: (t.detach n).children x else (t.detach n).children x)) :
    t'.WellFormed := by
  refine (ht.linked.hang hparent hchildren).wellFormed ?_
  -- a way up either avoids the node or goes through it to the new parent
  have split_way {a b : NodeId} (h : t'.Inside a b) :
      t.Inside a b ∨ t.Under a n ∧ t.Under p b := by
    induction h using Relation.TransGen.head_induction_on with
    | @single a h =>
        have h : t'.parent a = some b := h
        rw [hparent] at h
        split at h
        · next ha =>
          cases h
          exact .inr ⟨ha ▸ .refl, .refl⟩
        · exact .inl (.single h)
    | @head a c h _ ih =>
        have h : t'.parent a = some c := h
        rw [hparent] at h
        split at h
        · next ha =>
          cases h
          rcases ih with h | ⟨h, -⟩
          · exact .inr ⟨ha ▸ .refl, h.under⟩
          · exact absurd h hnp
        · rcases ih with h' | ⟨h', hb⟩
          · exact .inl (.head h h')
          · exact .inr ⟨.head h h', hb⟩
  intro a h
  rcases split_way h with h | ⟨han, hpa⟩
  · exact ht.acyclic a h
  · exact hnp (Relation.ReflTransGen.trans hpa han)

theorem insertChild {n p : NodeId} (hn : n < t.size) (hp : p < t.size) (hnp : ¬ t.Under p n)
    (i : Nat) : (t.insertChild p i n).WellFormed :=
  ht.hang hnp (fun _ => parent_insertChild _ _ _ _ i hn) (perm_children_insertChild hp i)

theorem appendChild {n p : NodeId} (hn : n < t.size) (hp : p < t.size) (hnp : ¬ t.Under p n) :
    (t.appendChild p n).WellFormed :=
  ht.hang hnp (fun _ => parent_appendChild _ _ _ _ hn) (perm_children_appendChild hp)

end WellFormed

end ComponentAudit.Tree
