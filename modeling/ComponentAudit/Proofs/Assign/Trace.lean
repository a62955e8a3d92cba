import ComponentAudit.Proofs.Assign.Walk

set_option autoImplicit false

/-! # Where the entries of a state come from

Whatever the shape of the graph, a state says nothing that no instruction wrote: its fields are
fields that the pattern found, each of them once, the origin of a value is mixed or that of some
write to the field, and every unknown write is one of an instruction (`Solver.Traced`).

Main statement: `Solver.traced_atSink`, by an induction on the walk that finds the state.
-/

namespace ComponentAudit

namespace Solver

/-- Whether an entry for a field comes from writes of instructions. -/
structure TracedEntry (s : Solver) (e : Field × Assignment) : Prop where
  field : ∃ i a, s.matcher i = some (.field e.1 a)
  origin : e.2.origin = .mixed ∨
    ∃ i g a, s.matcher i = some (.field g a) ∧ g.decl = e.1.decl ∧ a.origin = e.2.origin

/-- Whether fields and unknown writes come from writes of instructions. -/
structure Traced (s : Solver) (assigned : Assigned) (unknown : List Assignment) : Prop where
  entry : ∀ e ∈ assigned, s.TracedEntry e
  distinct : assigned.Pairwise fun e e' => e.1.decl ≠ e'.1.decl
  unknown : ∀ a ∈ unknown, ∃ i, s.matcher i = some (.unknown a)

variable {s : Solver}

theorem traced_nil (s : Solver) : s.Traced [] [] := ⟨by simp, .nil, by simp⟩

/-- What becomes mixed has no origin, and what does not keeps the one it had. -/
theorem TracedEntry.meet {f : Field} {a : Assignment} (t : Tree) (ha : s.TracedEntry (f, a))
    (b : Assignment) : s.TracedEntry (f, a.meet t b) := by
  refine ⟨ha.field, ?_⟩
  by_cases h : a.origin = b.origin
  · have horigin : (a.meet t b).origin = a.origin := by simp [Assignment.meet, Origin.meet, h]
    rw [horigin]
    exact ha.origin
  · exact .inl (by simp [Assignment.meet, Origin.meet, h])

theorem Traced.join {m : Merge} {state : State} (hm : s.Traced (m.assigned.getD []) m.unknown)
    (hs : s.Traced state.assigned state.unknown) :
    s.Traced ((m.join s.tree state).assigned.getD []) (m.join s.tree state).unknown := by
  cases state with
  | empty | pending => exact hm
  | known k =>
      have hunknown : ∀ a ∈ m.unknown ++ k.unknown, ∃ i, s.matcher i = some (.unknown a) :=
        fun a ha => (List.mem_append.mp ha).elim (hm.unknown a) (hs.unknown a)
      cases hA : m.assigned with
      | none =>
          refine ⟨fun e he => ?_, ?_, hunknown⟩
          · exact hs.entry e (by simpa [Merge.join, hA, State.assigned] using he)
          · simpa [Merge.join, hA, State.assigned] using hs.distinct
      | some current =>
          rw [hA, Option.getD_some] at hm
          simp only [Merge.join, hA, Option.getD_some, Assigned.meet]
          refine ⟨fun e he => ?_, ?_, hunknown⟩
          · simp only [List.mem_filterMap, Option.map_eq_some_iff] at he
            obtain ⟨⟨f, a⟩, hfa, b, -, rfl⟩ := he
            exact (hm.entry _ hfa).meet s.tree b
          -- a field that stays is the one it was
          · refine hm.distinct.filterMap _ fun x x' hne y hy y' hy' => ?_
            obtain ⟨b, -, rfl⟩ := Option.map_eq_some_iff.mp hy
            obtain ⟨b', -, rfl⟩ := Option.map_eq_some_iff.mp hy'
            exact hne

/-- An entry after a write is an earlier one or the one that the write replaces or adds. -/
theorem mem_set_cases {m : Assigned} {f : Field} {a : Assignment} {e : Field × Assignment}
    (h : e ∈ m.set f a) :
    e ∈ m ∨ e.2 = a ∧ e.1.decl = f.decl ∧ (e.1 = f ∨ ∃ b, (e.1, b) ∈ m) := by
  induction m with
  | nil =>
      rw [Assigned.set, List.mem_singleton] at h
      rw [h]
      exact .inr ⟨rfl, rfl, .inl rfl⟩
  | cons x m ih =>
      obtain ⟨g, b⟩ := x
      rw [Assigned.set] at h
      split at h
      · next hdecl =>
        rcases List.mem_cons.mp h with rfl | h
        · exact .inr ⟨rfl, hdecl, .inr ⟨b, List.mem_cons_self⟩⟩
        · exact .inl (List.mem_cons_of_mem _ h)
      · rcases List.mem_cons.mp h with rfl | h
        · exact .inl List.mem_cons_self
        · rcases ih h with h | ⟨ha, hdecl, h⟩
          · exact .inl (List.mem_cons_of_mem _ h)
          · refine .inr ⟨ha, hdecl, h.imp_right ?_⟩
            rintro ⟨b, hb⟩
            exact ⟨b, List.mem_cons_of_mem _ hb⟩

theorem distinct_set {m : Assigned} (h : m.Pairwise fun e e' => e.1.decl ≠ e'.1.decl) (f : Field)
    (a : Assignment) : (m.set f a).Pairwise fun e e' => e.1.decl ≠ e'.1.decl := by
  induction m with
  | nil => exact List.pairwise_singleton ..
  | cons x m ih =>
      obtain ⟨g, b⟩ := x
      obtain ⟨hg, hm⟩ := List.pairwise_cons.mp h
      rw [Assigned.set]
      split
      · exact List.pairwise_cons.mpr ⟨hg, hm⟩
      · next hdecl =>
        refine List.pairwise_cons.mpr ⟨fun e he => ?_, ih hm⟩
        rcases mem_set_cases he with he | ⟨-, he, -⟩
        · exact hg e he
        · exact fun heq => hdecl (heq.trans he)

theorem Traced.close {m : Merge} (hm : s.Traced (m.assigned.getD []) m.unknown) (i : InstrId) :
    s.Traced (s.close i m).assigned (s.close i m).unknown := by
  unfold Solver.close
  split
  · next f a hmatch =>
    refine ⟨fun e he => ?_, distinct_set hm.distinct f a, hm.unknown⟩
    rcases mem_set_cases he with he | ⟨rfl, hdecl, hf⟩
    · exact hm.entry e he
    · refine ⟨?_, .inr ⟨i, f, e.2, hmatch, hdecl.symm, rfl⟩⟩
      rcases hf with rfl | ⟨b, hb⟩
      · exact ⟨i, e.2, hmatch⟩
      · exact (hm.entry _ hb).field
  · next a hmatch =>
    refine ⟨hm.entry, hm.distinct, fun b hb => ?_⟩
    rcases List.mem_append.mp hb with hb | hb
    · exact hm.unknown b hb
    · rw [List.mem_singleton.mp hb]
      exact ⟨i, hmatch⟩
  · exact hm

/-- Whether all states found are traced. -/
def TracedMemo (s : Solver) (memo : Memo) : Prop :=
  ∀ i state, memo.find? i = some state → s.Traced state.assigned state.unknown

theorem TracedMemo.put {memo : Memo} (h : s.TracedMemo memo) (i : InstrId) {state : State}
    (hs : s.Traced state.assigned state.unknown) : s.TracedMemo (memo.put i state) :=
  Memo.forall_put h hs

theorem Scan.traced {memo memo' : Memo} {rest : List InstrId} {m m' : Merge}
    (h : s.Scan memo rest m memo' m') (hmemo : s.TracedMemo memo)
    (hm : s.Traced (m.assigned.getD []) m.unknown) :
    s.TracedMemo memo' ∧ s.Traced (m'.assigned.getD []) m'.unknown := by
  induction h with
  | done => exact ⟨hmemo, hm⟩
  | pass _ _ ih => exact ih hmemo hm
  | found _ hp _ ih => exact ih hmemo (hm.join (hmemo _ _ hp))
  | opened _ _ _ _ ih₁ ih₂ =>
      obtain ⟨hmemo₁, hm₁⟩ := ih₁ (hmemo.put _ s.traced_nil) s.traced_nil
      exact ih₂ (hmemo₁.put _ (hm₁.close _)) (hm.join (hm₁.close _))

/-- **A state says nothing that no instruction wrote.** -/
theorem traced_atSink (hf : s.flow.Linked) : s.Traced s.atSink.assigned s.atSink.unknown := by
  have hempty : s.TracedMemo (Memo.empty s.flow) := by
    intro i state hi
    simp at hi
  unfold atSink
  obtain ⟨memo', m', hscan, hsolve⟩ := exists_scan_start (fit_empty hf) s.flow.sink
  rw [hsolve]
  exact (hscan.traced (hempty.put _ s.traced_nil) s.traced_nil).2.close _

/-- What a state says of a field is what its entry says. -/
theorem Traced.get?_eq {state : State} (h : s.Traced state.assigned state.unknown)
    {e : Field × Assignment} (he : e ∈ state.assigned) : state.get? e.1 = some e.2 := by
  have hfind : state.assigned.find? (fun e' => e'.1.decl == e.1.decl) = some e := by
    have hdistinct := h.distinct
    generalize state.assigned = entries at he hdistinct
    induction entries with
    | nil => cases he
    | cons x entries ih =>
        obtain ⟨hx, hrest⟩ := List.pairwise_cons.mp hdistinct
        rcases List.mem_cons.mp he with rfl | he
        · simp
        · rw [List.find?_cons_of_neg (by simpa using hx e he), ih he hrest]
  rw [State.get?, Assigned.get?, hfind]
  rfl

end Solver

end ComponentAudit
