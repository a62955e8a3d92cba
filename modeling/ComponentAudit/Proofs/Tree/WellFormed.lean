import ComponentAudit.Tree.Layout
import ComponentAudit.Tree.Views
import Mathlib.Tactic
import Mathlib.Logic.Relation
import Mathlib.Data.List.Nodup

set_option autoImplicit false

/-! # Well-formed trees

A tree is well formed when the lists of children and the links to parents tell the same, and
nobody is above itself (`Tree.WellFormed`). In such a tree the walks up, which are bounded by the
size of the table, are never cut off.

Main statements: `mem_lineage_iff`, which says that the lineage of a node holds exactly the nodes
that it lies under, `depth_of_parent` and `depth_le_size`, which bound recursion down a tree, and
`commonAncestor?_eq_some_iff`, which says which node is the common ancestor of two.
-/

namespace ComponentAudit.Tree

/-- Whether a node is the parent of another one. -/
def Hangs (t : Tree) (c p : NodeId) : Prop := t.parent c = some p

/-- Whether a node lies under another one, each node counting as under itself. -/
def Under (t : Tree) : NodeId → NodeId → Prop := Relation.ReflTransGen t.Hangs

/-- Whether a node lies under another one and is another one. -/
def Inside (t : Tree) : NodeId → NodeId → Prop := Relation.TransGen t.Hangs

/-- Children and parents tell the same, no child is listed twice, and nobody is above itself. -/
structure WellFormed (t : Tree) : Prop where
  mem_children_iff : ∀ {p c : NodeId}, c ∈ t.children p ↔ t.parent c = some p
  nodup_children : ∀ p, (t.children p).Nodup
  acyclic : ∀ n, ¬ t.Inside n n

/-- Children and parents tell the same, and no child is listed twice. -/
structure Linked (t : Tree) : Prop where
  mem_children_iff : ∀ {p c : NodeId}, c ∈ t.children p ↔ t.parent c = some p
  nodup_children : ∀ p, (t.children p).Nodup

variable {t : Tree}

theorem WellFormed.linked (ht : t.WellFormed) : t.Linked :=
  ⟨ht.mem_children_iff, ht.nodup_children⟩

theorem Linked.wellFormed (hl : t.Linked) (h : ∀ n, ¬ t.Inside n n) : t.WellFormed :=
  ⟨hl.mem_children_iff, hl.nodup_children, h⟩

theorem mem_children_of_significant {id x : NodeId} (h : x ∈ t.significant id) :
    x ∈ t.children id :=
  (List.mem_filter.mp h).1

theorem mem_children_of_operands? {id a b : NodeId} (h : t.operands? id = some (a, b)) :
    a ∈ t.children id ∧ b ∈ t.children id := by
  unfold operands? at h
  split at h
  · split at h
    next left right hc =>
      obtain ⟨rfl, rfl⟩ := Prod.mk.inj (Option.some.inj h)
      simp [hc]
    next => cases h
  · cases h

/-! ## Chains of parents -/

theorem chain_none (t : Tree) (n : Nat) : t.chain n none = [] := by cases n <;> rfl

theorem under_of_mem_chain {n : Nat} {p a : NodeId} (h : a ∈ t.chain n (some p)) :
    t.Under p a := by
  induction n generalizing p with
  | zero => simp [chain] at h
  | succ n ih =>
      rcases List.mem_cons.mp h with rfl | h
      · exact .refl
      · cases hp : t.parent p with
        | none => simp [hp, chain_none] at h
        | some q => exact .head hp (ih (hp ▸ h))

/-- A chain that ends before it is cut off does not change when it may be longer. -/
theorem chain_eq_of_length_lt {n m : Nat} {o : Option NodeId} (h : (t.chain n o).length < n)
    (hm : n ≤ m) : t.chain m o = t.chain n o := by
  induction n generalizing o m with
  | zero => exact absurd h (Nat.not_lt_zero _)
  | succ n ih =>
      obtain ⟨m, rfl⟩ : ∃ k, m = k + 1 := ⟨m - 1, by omega⟩
      cases o with
      | none => rfl
      | some p =>
          simp only [chain, List.length_cons] at h ⊢
          rw [ih (by omega) (by omega)]

namespace WellFormed

variable (ht : t.WellFormed)

include ht

theorem inside_of_child {c p : NodeId} (h : c ∈ t.children p) : t.Inside c p :=
  .single (ht.mem_children_iff.mp h)

theorem lt_size {c p : NodeId} (h : t.parent c = some p) : p < t.size :=
  lt_size_of_mem_children (ht.mem_children_iff.mpr h)

theorem nodup_chain (n : Nat) (o : Option NodeId) : (t.chain n o).Nodup := by
  induction n generalizing o with
  | zero => simp [chain]
  | succ n ih =>
      cases o with
      | none => simp [chain]
      | some p =>
          refine List.nodup_cons.mpr ⟨?_, ih _⟩
          intro hmem
          cases hp : t.parent p with
          | none => simp [hp, chain_none] at hmem
          | some q => exact ht.acyclic p (.head' hp (under_of_mem_chain (hp ▸ hmem)))

theorem lt_size_of_mem_chain {n : Nat} {o : Option NodeId} (ho : ∀ p, o = some p → p < t.size)
    {a : NodeId} (h : a ∈ t.chain n o) : a < t.size := by
  induction n generalizing o with
  | zero => simp [chain] at h
  | succ n ih =>
      cases o with
      | none => simp [chain] at h
      | some p =>
          rcases List.mem_cons.mp h with rfl | h
          · exact ho a rfl
          · exact ih (fun _ hq => ht.lt_size hq) h

theorem nodup_lineage (n : NodeId) : (t.lineage n).Nodup := by
  refine List.nodup_cons.mpr ⟨?_, ht.nodup_chain ..⟩
  intro hmem
  unfold ancestors at hmem
  cases hp : t.parent n with
  | none => simp [hp, chain_none] at hmem
  | some q => exact ht.acyclic n (.head' hp (under_of_mem_chain (hp ▸ hmem)))

/-- The lineage of a node has at most as many members as there are nodes. -/
theorem length_lineage_le {n : NodeId} (hn : n < t.size) : (t.lineage n).length ≤ t.size := by
  have hsub : t.lineage n ⊆ List.range t.size := by
    intro a ha
    rw [List.mem_range]
    rcases List.mem_cons.mp ha with rfl | ha
    · exact hn
    · exact ht.lt_size_of_mem_chain (fun _ hp => ht.lt_size hp) ha
  simpa using (List.subperm_of_subset (ht.nodup_lineage n) hsub).length_le

/-- The nodes above a node are its parent and the nodes above the parent. -/
theorem ancestors_of_parent {c p : NodeId} (h : t.parent c = some p) :
    t.ancestors c = t.lineage p := by
  -- the chain of the parent ends before its bound, so one more step makes no difference
  have hlen : (t.chain t.size (some p)).length < t.size := by
    have := ht.length_lineage_le (lt_size_of_parent h)
    rw [lineage, ancestors, h, List.length_cons] at this
    omega
  rw [ancestors, h, ← chain_eq_of_length_lt hlen (Nat.le_succ _)]
  rfl

theorem lineage_of_parent {c p : NodeId} (h : t.parent c = some p) :
    t.lineage c = c :: t.lineage p := by
  rw [lineage, ht.ancestors_of_parent h]

/-- **The lineage of a node holds exactly the nodes that it lies under.** -/
theorem mem_lineage_iff {n a : NodeId} : a ∈ t.lineage n ↔ t.Under n a := by
  constructor
  · intro h
    rcases List.mem_cons.mp h with rfl | h
    · exact .refl
    · unfold ancestors at h
      cases hp : t.parent n with
      | none => simp [hp, chain_none] at h
      | some p => exact .head hp (under_of_mem_chain (hp ▸ h))
  · intro h
    induction h using Relation.ReflTransGen.head_induction_on with
    | refl => exact List.mem_cons_self
    | head hp _ ih =>
        rw [ht.lineage_of_parent hp]
        exact List.mem_cons_of_mem _ ih

end WellFormed

/-- The number of nodes that a node lies under, itself included. -/
def depth (t : Tree) (n : NodeId) : Nat := (t.lineage n).length

theorem depth_pos (n : NodeId) : 0 < t.depth n := Nat.succ_pos _

theorem WellFormed.depth_of_parent (ht : t.WellFormed) {c p : NodeId} (h : t.parent c = some p) :
    t.depth c = t.depth p + 1 := by
  rw [depth, ht.lineage_of_parent h]
  rfl

theorem WellFormed.depth_lt_of_inside (ht : t.WellFormed) {c p : NodeId} (h : t.Inside c p) :
    t.depth p < t.depth c := by
  induction h with
  | single h => exact (ht.depth_of_parent h).symm ▸ Nat.lt_succ_self _
  | tail _ h ih => exact Nat.lt_trans ((ht.depth_of_parent h).symm ▸ Nat.lt_succ_self _) ih

theorem WellFormed.depth_le_size (ht : t.WellFormed) {n : NodeId} (hn : n < t.size) :
    t.depth n ≤ t.size :=
  ht.length_lineage_le hn

/-! ## Deciding well-formedness -/

/-- From a node above itself every chain of parents goes on to where it is cut off. -/
theorem length_chain_of_cycle {n : NodeId} (h : Relation.TransGen t.Hangs n n) (k : Nat) :
    (t.chain k (some n)).length = k := by
  induction k generalizing n with
  | zero => rfl
  | succ k ih =>
      obtain ⟨p, hp, hpn⟩ := Relation.TransGen.head'_iff.mp h
      have hparent : t.parent n = some p := hp
      rw [chain, hparent, List.length_cons, ih (Relation.TransGen.tail' hpn hp)]

/-- Well-formedness as a check of the entries of the table. -/
theorem wellFormed_iff : t.WellFormed ↔
    (∀ n < t.size, (∀ c ∈ t.children n, t.parent c = some n) ∧
      (∀ p ∈ t.parent n, n ∈ t.children p) ∧ (t.children n).Nodup ∧
      (t.ancestors n).length < t.size) := by
  constructor
  · intro ht n hn
    refine ⟨fun c hc => ht.mem_children_iff.mp hc, fun p hp => ht.mem_children_iff.mpr hp,
      ht.nodup_children n, ?_⟩
    exact Nat.lt_of_succ_le (ht.length_lineage_le hn)
  · intro h
    refine ⟨?_, ?_, ?_⟩
    · intro p c
      constructor
      · intro hc
        exact (h p (lt_size_of_mem_children hc)).1 c hc
      · intro hp
        exact (h c (lt_size_of_parent hp)).2.1 p hp
    · intro p
      by_cases hp : p < t.size
      · exact (h p hp).2.2.1
      · simp [children_of_le (Nat.le_of_not_lt hp)]
    · -- on a circle the chain of parents is cut off at its bound, which the check rules out
      intro n hcycle
      obtain ⟨p, hp, hpn⟩ := Relation.TransGen.head'_iff.mp hcycle
      have hparent : t.parent n = some p := hp
      have hlt := (h n (lt_size_of_parent hp)).2.2.2
      rw [ancestors, hparent, length_chain_of_cycle (Relation.TransGen.tail' hpn hp)] at hlt
      exact Nat.lt_irrefl _ hlt

instance : Decidable t.WellFormed := decidable_of_iff' _ wellFormed_iff

/-! ## Common ancestors -/

namespace WellFormed

variable (ht : t.WellFormed)

include ht

/-- Two nodes that lie under each other are the same. -/
theorem under_antisymm {a b : NodeId} (hab : t.Under a b) (hba : t.Under b a) : a = b := by
  rcases Relation.ReflTransGen.cases_head hab with h | ⟨c, hac, hcb⟩
  · exact h
  · exact absurd (Relation.TransGen.head' hac (hcb.trans hba)) (ht.acyclic a)

/-- The rest of a lineage is the lineage of its first node. -/
theorem lineage_eq_of_append {b c : NodeId} {below above : List NodeId}
    (h : t.lineage b = below ++ c :: above) : t.lineage c = c :: above := by
  induction below generalizing b with
  | nil =>
      obtain ⟨rfl, -⟩ := List.cons.inj h
      exact h
  | cons x below ih =>
      obtain ⟨rfl, hrest⟩ := List.cons.inj h
      cases hp : t.parent b with
      | none => simp [ancestors, hp, chain_none] at hrest
      | some p => exact ih (ht.ancestors_of_parent hp ▸ hrest)

theorem commonAncestor?_spec {a b c : NodeId} (h : t.commonAncestor? a b = some c) :
    t.Under a c ∧ t.Under b c ∧ ∀ d, t.Under a d → t.Under b d → t.Under c d := by
  obtain ⟨hc, below, above, hb, hbelow⟩ := List.find?_eq_some_iff_append.mp h
  refine ⟨ht.mem_lineage_iff.mp (by simpa using hc), ht.mem_lineage_iff.mp (by simp [hb]), ?_⟩
  intro d had hbd
  -- no common ancestor comes before the one found
  have hnot : d ∉ below := fun hd => by
    have := hbelow d hd
    simp [ht.mem_lineage_iff.mpr had] at this
  have hmem := ht.mem_lineage_iff.mpr hbd
  rw [hb, List.mem_append, ← ht.lineage_eq_of_append hb] at hmem
  exact ht.mem_lineage_iff.mp (hmem.resolve_left hnot)

/-- **The common ancestor of two nodes** is above both, and every node above both is above it. -/
theorem commonAncestor?_eq_some_iff {a b c : NodeId} : t.commonAncestor? a b = some c ↔
    t.Under a c ∧ t.Under b c ∧ ∀ d, t.Under a d → t.Under b d → t.Under c d := by
  refine ⟨ht.commonAncestor?_spec, ?_⟩
  rintro ⟨hac, hbc, hmin⟩
  obtain ⟨c', h⟩ : ∃ c', t.commonAncestor? a b = some c' := by
    rw [← Option.isSome_iff_exists, commonAncestor?, List.find?_isSome]
    exact ⟨c, ht.mem_lineage_iff.mpr hbc, by simpa using ht.mem_lineage_iff.mpr hac⟩
  obtain ⟨hac', hbc', hmin'⟩ := ht.commonAncestor?_spec h
  rw [h, ht.under_antisymm (hmin c' hac' hbc') (hmin' c hac hbc)]

theorem commonAncestor?_eq_none_iff {a b : NodeId} :
    t.commonAncestor? a b = none ↔ ∀ d, t.Under a d → ¬ t.Under b d := by
  rw [commonAncestor?, List.find?_eq_none]
  constructor
  · intro h d had hbd
    have := h d (ht.mem_lineage_iff.mpr hbd)
    simp [ht.mem_lineage_iff.mpr had] at this
  · intro h d hbd
    have := h d
    simpa [ht.mem_lineage_iff] using fun had => this had (ht.mem_lineage_iff.mp hbd)

end WellFormed

end ComponentAudit.Tree
