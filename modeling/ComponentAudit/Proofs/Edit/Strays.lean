import ComponentAudit.Proofs.Edit.Stages

set_option autoImplicit false

/-! # Writes that name no field

A write of the props that names no field is an assignment which runs with the block of the lambda.
So it does not lie in a function inside the block, and where it is part of a selection it is the
receiver (`Tree.Stray`). Removing such writes takes them out, and blanks beside them; all else hangs
where it hung (`Tree.Pruned`).

Main statements: `SyncTask.stray_of_mem` and `Tree.pruned_foldl`.
-/

namespace ComponentAudit

namespace Tree

variable {t u w : Tree} {body n : NodeId}

/-! ## Where the writes are -/

/-- Whether a node inside a block runs with the block. -/
structure Stray (t : Tree) (body n : NodeId) : Prop where
  inside : t.Inside n body
  scope : t.SameScope body n
  receiver : ∀ {p : NodeId}, t.parent n = some p → t.kind p = .select →
    ∃ r, t.operands? p = some (n, r)

/-- The nodes between a node and the scope it is in open no scopes. -/
theorem SameScope.opensScope_eq (ht : t.WellFormed) (h : t.SameScope body n) {a : NodeId}
    (hn : t.Inside n a) (ha : t.Under a body) : t.opensScope a = false := by
  induction h with
  | refl => exact absurd hn (ht.not_inside_of_under ha)
  | @child p c _ hopen hp ih =>
      obtain ⟨q, hq, hqa⟩ := hn.exists_parent
      obtain rfl : p = q := Option.some.inj (hp.symm.trans hq)
      rcases under_iff_eq_or_inside.mp hqa with rfl | hinside
      · exact hopen
      · exact ih hinside

/-- What is evaluated of a selection is its receiver. -/
theorem WellFormed.receiver_of_placeOperands (ht : t.WellFormed) {place x p q : NodeId}
    (hq : t.parent place = some q) (hkind : t.kind q ≠ .select) (hx : x ∈ t.placeOperands place)
    (hp : t.parent x = some p) (hk : t.kind p = .select) : ∃ r, t.operands? p = some (x, r) := by
  unfold placeOperands at hx
  split at hx
  · obtain ⟨⟨a, r⟩, ho, rfl⟩ := Option.map_eq_some_iff.mp (Option.mem_toList.mp hx)
    have hparent := ht.mem_children_iff.mp (mem_children_of_operands? ho).1
    obtain rfl : place = p := Option.some.inj (hparent.symm.trans hp)
    exact ⟨r, ho⟩
  · cases hx
  · obtain rfl := List.mem_singleton.mp hx
    obtain rfl : q = p := Option.some.inj (hq.symm.trans hp)
    exact absurd hk hkind

theorem WellFormed.receiver_of_needs (ht : t.WellFormed) {v w : Usage} {id x p : NodeId}
    (h : t.Needs v id w x) (hp : t.parent x = some p) (hk : t.kind p = .select) :
    ∃ r, t.operands? p = some (x, r) := by
  -- a child of another node is no part of a selection
  have hchild (hx : x ∈ t.children id) (hid : t.kind id ≠ .select) :
      ∃ r, t.operands? p = some (x, r) := by
    obtain rfl : id = p := Option.some.inj ((ht.mem_children_iff.mp hx).symm.trans hp)
    exact absurd hk hid
  cases h with
  | operand h =>
      unfold operandsOf at h
      split at h
      · next hid =>
        split at h
        next place stored ho =>
          have hmem := mem_children_of_operands? ho
          rcases List.mem_append.mp h with h | h
          · exact ht.receiver_of_placeOperands (ht.mem_children_iff.mp hmem.1) (by simp [hid]) h
              hp hk
          · exact hchild (List.mem_singleton.mp h ▸ hmem.2) (by simp [hid])
        next => cases h
      · obtain ⟨⟨a, r⟩, ho, rfl⟩ := Option.map_eq_some_iff.mp (Option.mem_toList.mp h)
        have hparent := ht.mem_children_iff.mp (mem_children_of_operands? ho).1
        obtain rfl : id = p := Option.some.inj (hparent.symm.trans hp)
        exact ⟨r, ho⟩
      · next hid =>
        refine hchild ?_ (by simp [hid])
        rcases List.mem_append.mp h with h | h
        · exact mem_children_of_arguments h
        · exact mem_children_of_trailingLambda? (Option.mem_toList.mp h)
      · next hid => exact hchild (mem_children_of_part h) (by simp [hid])
      · next hid => exact hchild (mem_children_of_part h) (by simp [hid])
      · cases h
  | test hform h =>
      refine hchild (mem_children_of_part h) ?_
      rcases hform with hform | hform
      · simp [kind_of_choice hform]
      · simp [(kind_of_repetition hform).2]
  | branch hform _ h => exact hchild (mem_children_of_part h) (by simp [kind_of_choice hform])
  | round hform h => exact hchild (mem_children_of_part h) (by simp [(kind_of_repetition hform).2])
  | item hform h =>
      exact hchild (mem_children_of_significant h) (by simp [(kind_of_listing hform).2])

/-- What a block involves runs with it. -/
theorem WellFormed.stray_of_involves (ht : t.WellFormed) {v : Usage}
    (h : t.Involves .statement body v n) (hn : t.Inside n body) : t.Stray body n where
  inside := hn
  scope := ht.sameScope_of_involves h
  receiver hp hk := by
    cases h with
    | self => exact absurd hn (ht.acyclic body)
    | next _ hneeds => exact ht.receiver_of_needs hneeds hp hk

end Tree

/-- **The writes that name no field run with the block.** -/
theorem SyncTask.stray_of_mem {s : Source} {b : Builder} {k : SyncTask} (ht : s.tree.WellFormed)
    (hknown : s.bodiesKnown = true) (hk : SyncTask.of s b = .ok k) {n : NodeId}
    (hn : n ∈ k.strayWrites) : s.tree.Stray k.body n := by
  obtain ⟨call, lambda, schema, hparts, hsource, hschema, hfields, hstate, -⟩ :=
    SyncTask.of_eq_ok hk
  rw [SyncTask.mem_strayWrites_iff (hsource ▸ ht), hsource] at hn
  obtain ⟨⟨a, ha, hanchor⟩, hinside⟩ := hn
  have hfields? : ({ component := b.component, call } : Construction).fields? s =
      some k.fields := by
    rw [Construction.fields?, hschema, hfields]
    rfl
  obtain ⟨props, hprops⟩ := Construction.exists_props hfields?
  rw [Construction.state?_eq hknown hfields? hparts.lambda_eq hparts.body_eq hprops] at hstate
  rw [← Option.some.inj hstate] at ha
  obtain ⟨v, m, hinvolves, -, hm⟩ := (Solver.entry_of_traced ht hparts.body_eq).2 a ha
  obtain rfl : m = n := Option.some.inj (hm.symm.trans hanchor)
  exact ht.stray_of_involves hinvolves hinside

namespace Tree

variable {t u w : Tree} {ns : List NodeId}

/-! ## What is left without them -/

/-- Whether nodes were taken out of a tree, and besides only nodes that hung beside them. -/
structure Pruned (w : Tree) (ns : List NodeId) (u : Tree) : Prop where
  wellFormed : u.WellFormed
  kind_eq : ∀ n, u.kind n = w.kind n
  parent_of_parent : ∀ {n p : NodeId}, u.parent n = some p → w.parent n = some p
  children_eq : ∀ {p : NodeId}, (∀ n ∈ ns, w.parent n ≠ some p) → u.children p = w.children p
  children_sublist : ∀ p, (u.children p).Sublist (w.children p)
  not_mem_children : ∀ n ∈ ns, ∀ p, n ∉ u.children p

/-- **Removing statements** wherever they are. -/
theorem pruned_foldl (hw : w.WellFormed) (ns : List NodeId) :
    w.Pruned ns (ns.foldl dropStatement w) := by
  obtain ⟨gone, heq, hall, hgone⟩ := exists_detach_of_foldl hw ns
  obtain ⟨-, -, hview⟩ := foldl_detach hw gone
  rw [heq]
  refine ⟨hw.foldl_detach gone, fun n => (hview n).1, fun {n p} hp => ?_, fun {p} hp => ?_,
    fun p => ?_, fun n hn p hmem => ?_⟩
  · rw [(hview n).2.1] at hp
    exact (Option.ite_none_left_eq_some.mp hp).2
  · rw [(hview p).2.2, List.filter_eq_self]
    intro c hc
    have hnot : c ∉ gone := fun hin => by
      obtain ⟨n, hn, hnp⟩ := (hgone c hin).2 p (hw.mem_children_iff.mp hc)
      exact hp n hn hnp
    simpa using hnot
  · rw [(hview p).2.2]
    exact List.filter_sublist
  · rw [(hview p).2.2] at hmem
    simpa [hall n hn] using (List.mem_filter.mp hmem).2

end Tree

end ComponentAudit
