import ComponentAudit.Proofs.Assign.Lambda
import ComponentAudit.Proofs.Tree.Walks

set_option autoImplicit false

/-! # Bounds that are never met

Types and code are read off a tree by recursions with a bound, the size of the table. In a
well-formed tree each of them ends before its bound: an inquiry for a type asks a node of a higher
rank with every step, and the code of a node comes from nodes one level deeper. So the results stay
the same when the table grows and the bounds with it.

Main statements: `Source.typeWithin?_eq_of_le` for types and `Source.codeWithin_eq_of_le` for code.
-/

namespace ComponentAudit

namespace Source

variable {s : Source}

/-! ## Types -/

/-- The node whose type is asked for to find the type of another one: the receiver of a name behind
a point, and the selector of a selection. -/
def asks? (s : Source) (id : NodeId) : Option NodeId :=
  match s.tree.kind id with
  | .reference _ => s.qualifier? id
  | .select => (s.tree.operands? id).map (·.2)
  | _ => none

/-- The nodes that are asked one after the other, at most so many. -/
def inquiry (s : Source) : Nat → NodeId → List NodeId
  | 0, _ => []
  | n + 1, id => id :: (s.asks? id).toList.flatMap (s.inquiry n)

/-- The rank of a node in an inquiry: deeper nodes come later, and of the two sides of a point the
right one comes first. -/
def rank (s : Source) (id : NodeId) : Nat :=
  2 * s.tree.depth id + if (s.qualifier? id).isSome then 0 else 1

theorem parent_of_qualifier? {id receiver : NodeId} (h : s.qualifier? id = some receiver) :
    ∃ p, s.tree.parent id = some p ∧ s.tree.operands? p = some (receiver, id) := by
  unfold qualifier? at h
  obtain ⟨p, hp, h⟩ := Option.bind_eq_some_iff.mp h
  split at h
  · obtain ⟨⟨a, b⟩, ho, h⟩ := Option.bind_eq_some_iff.mp h
    obtain ⟨rfl, rfl⟩ : b = id ∧ a = receiver := by simpa using h
    exact ⟨p, hp, ho⟩
  · cases h

section

variable (ht : s.tree.WellFormed)

include ht

/-- The receiver of a name behind a point is not behind a point. -/
theorem qualifier?_receiver {id receiver : NodeId} (h : s.qualifier? id = some receiver) :
    s.qualifier? receiver = none := by
  obtain ⟨p, -, ho⟩ := parent_of_qualifier? h
  rw [Option.eq_none_iff_forall_ne_some]
  intro other hother
  obtain ⟨q, -, hq⟩ := parent_of_qualifier? hother
  exact not_selector ht ho hq

theorem rank_lt_of_asks? {id y : NodeId} (h : s.asks? id = some y) :
    y < s.tree.size ∧ s.rank id < s.rank y := by
  unfold asks? at h
  split at h
  · -- from the right side of a point to the left one
    obtain ⟨p, hp, ho⟩ := parent_of_qualifier? h
    have hy := ht.mem_children_iff.mp (Tree.mem_children_of_operands? ho).1
    have hdepth := ht.depth_of_parent hp
    have hdepth' := ht.depth_of_parent hy
    refine ⟨Tree.lt_size_of_parent hy, ?_⟩
    simp only [rank, h, qualifier?_receiver ht h, Option.isSome_some, Option.isSome_none]
    simp only [if_true, Bool.false_eq_true, if_false]
    omega
  · -- from a selection to its selector, one level deeper
    obtain ⟨⟨a, b⟩, ho, rfl⟩ := Option.map_eq_some_iff.mp h
    have hy := ht.mem_children_iff.mp (Tree.mem_children_of_operands? ho).2
    have hdepth := ht.depth_of_parent hy
    refine ⟨Tree.lt_size_of_parent hy, ?_⟩
    simp only [rank]
    split <;> split <;> omega
  · cases h

theorem rank_le_of_mem_inquiry {n : Nat} {id y : NodeId} (h : y ∈ s.inquiry n id) :
    s.rank id ≤ s.rank y := by
  induction n generalizing id with
  | zero => cases h
  | succ n ih =>
      rcases List.mem_cons.mp h with rfl | h
      · exact Nat.le_refl _
      · obtain ⟨z, hz, hy⟩ := List.mem_flatMap.mp h
        have hlt := (rank_lt_of_asks? ht (Option.mem_toList.mp hz)).2
        exact Nat.le_trans (Nat.le_of_lt hlt) (ih hy)

theorem nodup_inquiry (n : Nat) (id : NodeId) : (s.inquiry n id).Nodup := by
  induction n generalizing id with
  | zero => exact List.nodup_nil
  | succ n ih =>
      rw [inquiry]
      cases hy : s.asks? id with
      | none => simp
      | some y =>
          simp only [Option.toList_some, List.flatMap_cons, List.flatMap_nil, List.append_nil]
          refine List.nodup_cons.mpr ⟨fun hmem => ?_, ih y⟩
          exact absurd (rank_le_of_mem_inquiry ht hmem)
            (Nat.not_le_of_lt (rank_lt_of_asks? ht hy).2)

theorem lt_size_of_mem_inquiry {n : Nat} {id y : NodeId} (hid : id < s.tree.size)
    (h : y ∈ s.inquiry n id) : y < s.tree.size := by
  induction n generalizing id with
  | zero => cases h
  | succ n ih =>
      rcases List.mem_cons.mp h with rfl | h
      · exact hid
      · obtain ⟨z, hz, hy⟩ := List.mem_flatMap.mp h
        exact ih (rank_lt_of_asks? ht (Option.mem_toList.mp hz)).1 hy

/-- An inquiry never asks a node twice, so it is not longer than the table. -/
theorem length_inquiry_le {id : NodeId} (hid : id < s.tree.size) (n : Nat) :
    (s.inquiry n id).length ≤ s.tree.size := by
  have hsub : s.inquiry n id ⊆ List.range s.tree.size := fun y hy =>
    List.mem_range.mpr (lt_size_of_mem_inquiry ht hid hy)
  simpa using (List.subperm_of_subset (nodup_inquiry ht n id) hsub).length_le

end

/-- An inquiry that ends is not changed by a higher bound. -/
theorem typeWithin?_succ {n : Nat} {id : NodeId} (h : (s.inquiry (n + 1) id).length ≤ n) :
    s.typeWithin? (n + 1) id = s.typeWithin? n id := by
  induction n generalizing id with
  | zero => simp [inquiry] at h
  | succ n ih =>
      have hnext {y : NodeId} (hy : s.asks? id = some y) :
          s.typeWithin? (n + 1) y = s.typeWithin? n y := by
        rw [inquiry, hy] at h
        exact ih (by simpa using h)
      rw [typeWithin?, typeWithin?]
      unfold asks? at hnext
      split
      · next name hk =>
        rw [hk] at hnext
        cases hq : s.qualifier? id with
        | none => rfl
        | some receiver =>
            dsimp only
            rw [hnext hq]
      · next hk =>
        rw [hk] at hnext
        cases ho : s.tree.operands? id with
        | none => rfl
        | some o => exact hnext (by rw [ho, Option.map_some])
      all_goals rfl

/-- **The bound of an inquiry for a type is never met.** -/
theorem typeWithin?_eq_of_le (ht : s.tree.WellFormed) {n : Nat} (h : s.tree.size ≤ n)
    (id : NodeId) : s.typeWithin? n id = s.typeOf? id := by
  by_cases hid : id < s.tree.size
  · induction n, h using Nat.le_induction with
    | base => rfl
    | succ n hn ih =>
        rw [typeWithin?_succ, ih]
        exact Nat.le_trans (length_inquiry_le ht hid _) hn
  · have hkind : s.tree.kind id = .blank "" := Tree.kind_of_le (Nat.le_of_not_lt hid)
    have hnone (k : Nat) : s.typeWithin? k id = none := by
      cases k <;> simp [typeWithin?, hkind]
    rw [typeOf?, hnone, hnone]

/-! ## Code -/

section

variable (ht : s.tree.WellFormed)

include ht

theorem assignCode_congr {expr expr' : NodeId → Code} {id : NodeId}
    (h : ∀ x, s.tree.Inside x id → expr x = expr' x) :
    s.assignCode expr id = s.assignCode expr' id := by
  unfold assignCode
  cases ho : s.tree.operands? id with
  | none => rfl
  | some o =>
      obtain ⟨place, value⟩ := o
      have hmem := Tree.mem_children_of_operands? ho
      have hplace := ht.inside_of_child hmem.1
      dsimp only
      rw [h value (ht.inside_of_child hmem.2)]
      split
      · cases hs : s.tree.operands? place with
        | none => rfl
        | some o =>
            obtain ⟨receiver, selector⟩ := o
            have hreceiver := ht.inside_of_child (Tree.mem_children_of_operands? hs).1
            dsimp only
            rw [h receiver (hreceiver.trans hplace)]
      · rfl
      · rw [h place hplace]

theorem optional_congr {code code' : NodeId → Code} {id : NodeId} (place : Nat)
    (h : ∀ x, s.tree.Inside x id → code x = code' x) :
    optional code (s.tree.children id)[place]? = optional code' (s.tree.children id)[place]? := by
  cases hx : (s.tree.children id)[place]? with
  | none => rfl
  | some x => exact h x (ht.inside_of_child (List.mem_of_getElem? hx))

/-- **The bound of the walk that reads code is never met.** -/
theorem codeWithin_eq_of_le {n m : Nat} {usage : Usage} {id : NodeId} (hn : s.Reached n id)
    (hm : n ≤ m) : s.codeWithin m usage id = s.codeWithin n usage id := by
  induction n generalizing m usage id with
  | zero =>
      obtain ⟨k, hk⟩ := hn.pos ht
      cases hk
  | succ n ih =>
      obtain ⟨m, rfl⟩ : ∃ j, m = j + 1 := ⟨m - 1, by omega⟩
      have hinside (usage : Usage) (x : NodeId) (hx : s.tree.Inside x id) :
          s.codeWithin m usage x = s.codeWithin n usage x :=
        ih (hn.inside ht hx) (by omega)
      have hexpr := hinside .expression
      have hassign := assignCode_congr ht hexpr
      have hif : s.ifCode (s.codeWithin m) id = s.ifCode (s.codeWithin n) id := by
        simp only [ifCode, optional_congr ht _ hexpr, optional_congr ht _ (hinside .statement)]
      have hleave (way : Leave) : s.leaveCode (s.codeWithin m .expression) id way =
          s.leaveCode (s.codeWithin n .expression) id way := by
        simp only [leaveCode, optional_congr ht _ hexpr]
      have hblock : (s.tree.significant id).map (s.codeWithin m .statement) =
          (s.tree.significant id).map (s.codeWithin n .statement) :=
        List.map_congr_left fun x hx => hinside .statement x
          (ht.inside_of_child (Tree.mem_children_of_significant hx))
      have hcall : (s.tree.arguments id ++ (s.tree.trailingLambda? id).toList).map
            (s.codeWithin m .expression) =
          (s.tree.arguments id ++ (s.tree.trailingLambda? id).toList).map
            (s.codeWithin n .expression) := by
        refine List.map_congr_left fun x hx => hexpr x (ht.inside_of_child ?_)
        rcases List.mem_append.mp hx with hx | hx
        · exact Tree.mem_children_of_arguments hx
        · exact Tree.mem_children_of_trailingLambda? (Option.mem_toList.mp hx)
      have hselect : ∀ o, s.tree.operands? id = some o →
          s.codeWithin m .expression o.1 = s.codeWithin n .expression o.1 := fun o ho =>
        hexpr o.1 (ht.inside_of_child (Tree.mem_children_of_operands? ho).1)
      cases usage <;> cases hk : s.tree.kind id <;>
        simp only [codeWithin, hk, hassign, hif, hleave, hblock, hcall, optional_congr ht _ hexpr,
          optional_congr ht _ (hinside .statement)]
      all_goals
        cases ho : s.tree.operands? id with
        | none => rfl
        | some o =>
            dsimp only
            rw [hselect o ho]

end

end Source

end ComponentAudit
