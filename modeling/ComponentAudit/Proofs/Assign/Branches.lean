import ComponentAudit.Proofs.Assign.Meet

set_option autoImplicit false

/-! # The order of branches

Paths that come together are merged one after the other. What a merge says of the fields can be said
without their order (`Merge.Summed`): a field is assigned when all branches with a known state
assign it, and what is known of the write sums up what the branches know. Since there is only one
sum (`Assignment.Sums.unique`), merging again in another order, or with a branch repeated, leads to
the same.

Main statement: `Merge.joinAll_perm`.
-/

namespace ComponentAudit

/-- Writes have only one sum. -/
theorem Assignment.Sums.unique {t : Tree} (ht : t.WellFormed) {W : Set Assignment}
    {a b : Assignment} (ha : a.Sums t W) (hb : b.Sums t W) : a = b := by
  have horigin : a.origin = b.origin := by
    have hiff (p : NodeId) : a.origin = .parameter p ↔ b.origin = .parameter p :=
      (ha.origin p).trans (hb.origin p).symm
    cases ho : a.origin with
    | parameter p => exact ((hiff p).mp ho).symm
    | mixed =>
        cases ho' : b.origin with
        | parameter p => rw [(hiff p).mpr ho'] at ho; cases ho
        | mixed => rfl
  have hanchor : a.anchor = b.anchor := by
    -- each place is around all writes, so each lies under the other one
    cases hx : a.anchor with
    | none =>
        cases hy : b.anchor with
        | none => rfl
        | some y =>
            obtain ⟨x, hx', -⟩ := ha.nearest y (hb.around y hy)
            rw [hx] at hx'
            cases hx'
    | some x =>
        obtain ⟨y, hy, hyx⟩ := hb.nearest x (ha.around x hx)
        obtain ⟨x', hx', hxy⟩ := ha.nearest y (hb.around y hy)
        obtain rfl : x = x' := Option.some.inj (hx.symm.trans hx')
        rw [hy, ht.under_antisymm hxy hyx]
  cases a
  cases b
  simp_all

namespace Merge

/-- The merge of some branches, in their order. -/
def joinAll (t : Tree) (branches : List State) : Merge := branches.foldl (Merge.join t) {}

/-- What a merge says of each field, if a branch has come in. Fields are told apart by their
declarations. -/
def fields (m : Merge) : Option (Field → Option Assignment) := m.assigned.map Assigned.get?

/-- The writes to a field that the known states among some branches tell of. -/
def writes (branches : List State) (f : Field) : Set Assignment :=
  {a | ∃ k, State.known k ∈ branches ∧ k.assigned.get? f = some a}

/-- A merge of some branches, whatever their order. -/
structure Summed (t : Tree) (branches : List State) (m : Merge) : Prop where
  none_iff : m.assigned = none ↔ ∀ k, State.known k ∉ branches
  get_iff : ∀ (A : Assigned) f, m.assigned = some A → ((A.get? f).isSome = true ↔
    ∀ k, State.known k ∈ branches → (k.assigned.get? f).isSome = true)
  sums : ∀ (A : Assigned) f a, m.assigned = some A → A.get? f = some a →
    a.Sums t (writes branches f)

variable {t : Tree} {branches branches' : List State} {m m' : Merge}

theorem summed_nil (t : Tree) : Summed t [] {} where
  none_iff := by simp
  get_iff := by
    intro A f hA
    cases hA
  sums := by
    intro A f a hA
    cases hA

theorem writes_concat (branches : List State) (k : Knowledge) (f : Field) :
    writes (branches ++ [.known k]) f
      = writes branches f ∪ {a | k.assigned.get? f = some a} := by
  ext a
  constructor
  · rintro ⟨k', hk', ha⟩
    rcases List.mem_append.mp hk' with hk' | hk'
    · exact .inl ⟨k', hk', ha⟩
    · obtain rfl := State.known.inj (List.mem_singleton.mp hk')
      exact .inr ha
  · rintro (⟨k', hk', ha⟩ | ha)
    · exact ⟨k', List.mem_append_left _ hk', ha⟩
    · exact ⟨k, by simp, ha⟩

/-- What is known does not depend on how often and where it is said. -/
theorem Summed.congr (h : Summed t branches m)
    (heq : ∀ k, State.known k ∈ branches ↔ State.known k ∈ branches') :
    Summed t branches' m where
  none_iff := by
    rw [h.none_iff]
    simp only [heq]
  get_iff := by
    intro A f hA
    rw [h.get_iff A f hA]
    simp only [heq]
  sums := by
    intro A f a hA ha
    have hwrites : writes branches' f = writes branches f := by
      ext b
      simp only [writes, heq]
    rw [hwrites]
    exact h.sums A f a hA ha

theorem forall_known_concat {P : Knowledge → Prop} {k : Knowledge} :
    (∀ k', State.known k' ∈ branches ++ [.known k] → P k') ↔
      (∀ k', State.known k' ∈ branches → P k') ∧ P k := by
  constructor
  · intro h
    exact ⟨fun k' hk' => h k' (List.mem_append_left _ hk'), h k (by simp)⟩
  · rintro ⟨h, hk⟩ k' hk'
    rcases List.mem_append.mp hk' with hk' | hk'
    · exact h k' hk'
    · obtain rfl := State.known.inj (List.mem_singleton.mp hk')
      exact hk

/-- What a single state tells of a field is the sum of that. -/
theorem sums_get? (t : Tree) {A : Assigned} {f : Field} {a : Assignment} (ha : A.get? f = some a) :
    a.Sums t {b | A.get? f = some b} := by
  have hset : {b | A.get? f = some b} = {a} := by
    ext b
    simp [ha, eq_comm]
  rw [hset]
  exact .single t a

/-- One more branch. -/
theorem Summed.join (ht : t.WellFormed) (h : Summed t branches m) (state : State) :
    Summed t (branches ++ [state]) (m.join t state) := by
  cases state with
  | empty | pending => exact h.congr (by simp)
  | known k =>
      refine ⟨?_, ?_, ?_⟩
      · constructor
        · intro hnone
          cases hnone
        · intro hnot
          exact absurd (by simp) (hnot k)
      · intro A f hA
        obtain rfl := Option.some.inj hA
        rw [forall_known_concat]
        cases hm : m.assigned with
        | none =>
            -- the first branch is taken over as it is
            exact (and_iff_right fun k' hk' => absurd hk' (h.none_iff.mp hm k')).symm
        | some current =>
            rw [← h.get_iff current f hm]
            show ((current.meet t k.assigned).get? f).isSome = true ↔ _
            rw [Assigned.get?_meet]
            cases current.get? f <;> simp
      · intro A f a hA ha
        obtain rfl := Option.some.inj hA
        rw [writes_concat]
        cases hm : m.assigned with
        | none =>
            rw [hm] at ha
            have hempty : writes branches f = ∅ := by
              ext b
              simp [writes, h.none_iff.mp hm]
            rw [hempty, Set.empty_union]
            exact sums_get? t ha
        | some current =>
            rw [hm] at ha
            have ha : (current.meet t k.assigned).get? f = some a := ha
            rw [Assigned.get?_meet] at ha
            obtain ⟨x, hx, hmap⟩ := Option.bind_eq_some_iff.mp ha
            obtain ⟨y, hy, rfl⟩ := Option.map_eq_some_iff.mp hmap
            exact (h.sums current f x hm hx).meet ht (sums_get? t hy)

theorem summed_joinAll (ht : t.WellFormed) (branches : List State) :
    Summed t branches (joinAll t branches) := by
  induction branches using List.reverseRecOn with
  | nil => exact summed_nil t
  | append_singleton branches state ih =>
      have hjoin : joinAll t (branches ++ [state]) = (joinAll t branches).join t state := by
        unfold joinAll
        rw [List.foldl_append]
        rfl
      rw [hjoin]
      exact ih.join ht state

/-- Two merges of the same branches say the same of all fields. -/
theorem Summed.fields_eq (ht : t.WellFormed) (h : Summed t branches m)
    (h' : Summed t branches m') : m.fields = m'.fields := by
  have hnone : m.assigned = none ↔ m'.assigned = none := h.none_iff.trans h'.none_iff.symm
  unfold fields
  cases hA : m.assigned with
  | none => rw [hnone.mp hA]
  | some A =>
      cases hA' : m'.assigned with
      | none => rw [hnone.mpr hA'] at hA; cases hA
      | some A' =>
          have hget (f : Field) : A.get? f = A'.get? f := by
            have hiff : (A.get? f).isSome = true ↔ (A'.get? f).isSome = true :=
              (h.get_iff A f hA).trans (h'.get_iff A' f hA').symm
            cases ha : A.get? f with
            | none =>
                cases ha' : A'.get? f with
                | none => rfl
                | some a' => simp [ha, ha'] at hiff
            | some a =>
                cases ha' : A'.get? f with
                | none => simp [ha, ha'] at hiff
                | some a' => rw [(h.sums A f a hA ha).unique ht (h'.sums A' f a' hA' ha')]
          exact congrArg some (funext hget)

/-- The unknown writes of a merge are those of the branches, put together. -/
theorem unknown_joinAll (t : Tree) (branches : List State) :
    (joinAll t branches).unknown = branches.flatMap State.unknown := by
  have hfoldl (m : Merge) : (branches.foldl (Merge.join t) m).unknown
      = m.unknown ++ branches.flatMap State.unknown := by
    induction branches generalizing m with
    | nil => simp
    | cons state branches ih =>
        rw [List.foldl_cons, ih, List.flatMap_cons, ← List.append_assoc]
        cases state with
        | empty | pending => simp [Merge.join, State.unknown]
        | known k => rfl
  exact hfoldl {}

/-- **The order of branches does not matter.** Branches that are merged in another order say the
same of all fields, value and place alike, and have the same unknown writes as often. A branch that
is merged a second time, wherever it comes in, changes nothing for the fields. -/
theorem joinAll_perm (ht : t.WellFormed) (hperm : branches.Perm branches') :
    (joinAll t branches).fields = (joinAll t branches').fields ∧
      (joinAll t branches).unknown.Perm (joinAll t branches').unknown ∧
      ∀ state ∈ branches, ∀ again : List State, again.Perm (state :: branches) →
        (joinAll t again).fields = (joinAll t branches).fields := by
  have hsummed := summed_joinAll ht branches
  refine ⟨?_, ?_, ?_⟩
  · apply hsummed.fields_eq ht
    exact (summed_joinAll ht branches').congr fun k => hperm.mem_iff.symm
  · rw [unknown_joinAll, unknown_joinAll]
    exact hperm.flatMap_right _
  · intro state hstate again hagain
    refine Summed.fields_eq ht ((summed_joinAll ht again).congr fun k => ?_) hsummed
    rw [hagain.mem_iff, List.mem_cons]
    constructor
    · rintro (rfl | hk)
      · exact hstate
      · exact hk
    · exact .inr

/-- Three branches assign one field, two of them the same parameter at two places of a block; the
third has it from elsewhere in the file. One of them assigns another field, and another one has
an unknown write. -/
def threeBranches : List State :=
  [.known
    { assigned := [({ decl := 5 }, { origin := .parameter 7, anchor := some 2 }),
        ({ decl := 6 }, { origin := .mixed })] },
    .pending,
    .known
      { assigned := [({ decl := 5 }, { origin := .parameter 7, anchor := some 3 })]
        unknown := [{ origin := .mixed, anchor := some 3 }] },
    .empty,
    .known { assigned := [({ decl := 5 }, { origin := .parameter 8, anchor := some 4 })] }]

/-- Merged backwards, and with the first branch once more in the middle, the three branches leave
one field, mixed and placed in the file. -/
theorem joinAll_perm_threeBranches :
    let t : Tree :=
      { nodes := #[{ kind := .file "F", children := [1, 4] },
          { kind := .block, parent := some 0, children := [2, 3] },
          { kind := .assign, parent := some 1 }, { kind := .assign, parent := some 1 },
          { kind := .assign, parent := some 0 }]
        root := 0 }
    let again := threeBranches.drop 2 ++ threeBranches.take 1 ++ threeBranches.take 2
    t.WellFormed ∧ threeBranches.Perm threeBranches.reverse ∧
      (joinAll t threeBranches).assigned
        = some [({ decl := 5 }, { origin := .mixed, anchor := some 0 })] ∧
      (joinAll t (threeBranches.take 3)).assigned
        = some [({ decl := 5 }, { origin := .parameter 7, anchor := some 1 })] ∧
      (joinAll t threeBranches).fields = (joinAll t threeBranches.reverse).fields ∧
      (joinAll t threeBranches).unknown.Perm (joinAll t threeBranches.reverse).unknown ∧
      (joinAll t again).fields = (joinAll t threeBranches).fields := by
  intro t again
  have ht : t.WellFormed := by decide +kernel
  have hperm : threeBranches.Perm threeBranches.reverse := (List.reverse_perm _).symm
  obtain ⟨hfields, hunknown, hagain⟩ := joinAll_perm ht hperm
  exact ⟨ht, hperm, by decide +kernel, by decide +kernel, hfields, hunknown,
    hagain _ List.mem_cons_self again (by decide +kernel)⟩

end Merge

end ComponentAudit
