import ComponentAudit.Assign.Solver
import ComponentAudit.Proofs.Flow.Paths

set_option autoImplicit false

/-! # The walk as a recursion

Solving walks a graph with a stack of frames and a number of steps. Here the same walk is a
relation without either (`Solver.Scan`): the predecessors of an instruction are looked at one
after the other, and one without a state is opened, scanned and closed in between.

Main statements: `Solver.exists_scan`, which says that such a walk always ends, and
`Solver.solve_of_scan`, which says that solving does what it does, so that the steps suffice.
What a scan does to the states found before is said by `Scan.find?_eq` and `Scan.pending`.
-/

namespace ComponentAudit

/-! ## Remembered states -/

namespace Memo

@[simp] theorem size_put (m : Memo) (i : InstrId) (s : State) : (m.put i s).size = m.size := by
  simp [put]

theorem find?_put (m : Memo) (i j : InstrId) (s : State) :
    (m.put i s).find? j = if j = i ∧ i < m.size then some s else m.find? j := by
  simp only [find?, put, Array.getD_eq_getD_getElem?, Array.getElem?_setIfInBounds]
  by_cases h : i = j
  · by_cases hi : j < m.size <;> simp [h, hi]
  · simp [h, Ne.symm h]

theorem find?_put_self {m : Memo} {i : InstrId} (h : i < m.size) (s : State) :
    (m.put i s).find? i = some s := by
  rw [find?_put, if_pos ⟨rfl, h⟩]

theorem find?_put_ne {m : Memo} {i j : InstrId} (h : j ≠ i) (s : State) :
    (m.put i s).find? j = m.find? j := by
  rw [find?_put, if_neg fun hj => h hj.1]

theorem isSome_find?_put {m : Memo} {i j : InstrId} (h : (m.find? j).isSome = true) (s : State) :
    ((m.put i s).find? j).isSome = true := by
  rw [find?_put]
  split
  · rfl
  · exact h

/-- What holds of all states and of one more holds after that one is remembered. -/
theorem forall_put {m : Memo} {i : InstrId} {s : State} {P : InstrId → State → Prop}
    (h : ∀ j st, m.find? j = some st → P j st) (hi : P i s) :
    ∀ j st, (m.put i s).find? j = some st → P j st := by
  intro j st hj
  rw [find?_put] at hj
  split at hj
  · next hji =>
    rw [hji.1, ← Option.some.inj hj]
    exact hi
  · exact h j st hj

@[simp] theorem find?_empty (f : Flow) (i : InstrId) : (empty f).find? i = none := by
  simp only [find?, empty, Array.getD_eq_getD_getElem?, Array.getElem?_replicate]
  split <;> rfl

@[simp] theorem size_empty (f : Flow) : (empty f).size = f.size := by simp [empty]

/-- What the first solve begins with: the instruction that is asked for is pending. -/
def start (f : Flow) (i : InstrId) : Memo := (empty f).put i .pending

theorem find?_start_self {f : Flow} {i : InstrId} (h : i < f.size) :
    (start f i).find? i = some .pending :=
  find?_put_self (by rwa [size_empty]) _

theorem of_find?_start {f : Flow} {i j : InstrId} {state : State}
    (h : (start f i).find? j = some state) : j = i ∧ state = .pending :=
  forall_put (P := fun j state => j = i ∧ state = .pending) (by simp) ⟨rfl, rfl⟩ j state h

end Memo

/-! ## Scanning predecessors -/

/-- What becomes of the states found and of the merge when some predecessors of an instruction
are looked at, in order. -/
inductive Solver.Scan (s : Solver) : Memo → List InstrId → Merge → Memo → Merge → Prop
  | done (memo : Memo) (m : Merge) : Scan s memo [] m memo m
  | pass {memo memo' : Memo} {p : InstrId} {rest : List InstrId} {m m' : Merge} :
      s.flow.eligible p = false → Scan s memo rest m memo' m' → Scan s memo (p :: rest) m memo' m'
  | found {memo memo' : Memo} {p : InstrId} {rest : List InstrId} {m m' : Merge} {state : State} :
      s.flow.eligible p = true → memo.find? p = some state →
      Scan s memo rest (m.join s.tree state) memo' m' → Scan s memo (p :: rest) m memo' m'
  | opened {memo memo₁ memo' : Memo} {p : InstrId} {rest : List InstrId} {m m₁ m' : Merge} :
      s.flow.eligible p = true → memo.find? p = none →
      Scan s (memo.put p .pending) (s.flow.preds p) {} memo₁ m₁ →
      Scan s (memo₁.put p (s.close p m₁)) rest (m.join s.tree (s.close p m₁)) memo' m' →
      Scan s memo (p :: rest) m memo' m'

namespace Solver

variable {s : Solver} {memo memo' : Memo} {rest : List InstrId} {m m' : Merge}

theorem close_ne_pending (s : Solver) (i : InstrId) (m : Merge) : s.close i m ≠ .pending := by
  unfold close
  split <;> simp [Merge.state]

theorem Scan.size_eq (h : s.Scan memo rest m memo' m') : memo'.size = memo.size := by
  induction h with
  | done => rfl
  | pass _ _ ih => exact ih
  | found _ _ _ ih => exact ih
  | opened _ _ _ _ ih₁ ih₂ =>
      rw [Memo.size_put] at ih₁ ih₂
      rw [ih₂, ih₁]

/-- A scan keeps the states found before. -/
theorem Scan.find?_eq (h : s.Scan memo rest m memo' m') {i : InstrId} {state : State}
    (hi : memo.find? i = some state) : memo'.find? i = some state := by
  induction h with
  | done => exact hi
  | pass _ _ ih => exact ih hi
  | found _ _ _ ih => exact ih hi
  | @opened _ _ _ p _ _ _ _ _ hnone _ _ ih₁ ih₂ =>
      have hne : i ≠ p := by
        rintro rfl
        rw [hnone] at hi
        cases hi
      refine ih₂ ?_
      rw [Memo.find?_put_ne hne]
      refine ih₁ ?_
      rwa [Memo.find?_put_ne hne]

theorem Scan.isSome_find? (h : s.Scan memo rest m memo' m') {i : InstrId}
    (hi : (memo.find? i).isSome = true) : (memo'.find? i).isSome = true := by
  obtain ⟨state, hstate⟩ := Option.isSome_iff_exists.mp hi
  rw [h.find?_eq hstate]
  rfl

/-- Closing an instruction leaves pending what was pending before it was opened. -/
theorem pending_of_close {memo₁ : Memo} {p i : InstrId} {m₁ : Merge}
    (hsize : memo₁.size = memo.size)
    (h : memo₁.find? i = some .pending → (memo.put p .pending).find? i = some .pending)
    (hi : (memo₁.put p (s.close p m₁)).find? i = some .pending) :
    memo.find? i = some .pending := by
  rw [Memo.find?_put] at hi
  split at hi
  · exact absurd (Option.some.inj hi) (s.close_ne_pending p m₁)
  · next hp =>
    have hi := h hi
    rw [Memo.find?_put] at hi
    split at hi
    · next hp' => exact absurd ⟨hp'.1, hsize ▸ hp'.2⟩ hp
    · exact hi

/-- A scan leaves nothing pending that was not pending before. -/
theorem Scan.pending (h : s.Scan memo rest m memo' m') {i : InstrId}
    (hi : memo'.find? i = some .pending) : memo.find? i = some .pending := by
  induction h with
  | done => exact hi
  | pass _ _ ih => exact ih hi
  | found _ _ _ ih => exact ih hi
  | opened _ _ h₁ _ ih₁ ih₂ =>
      exact pending_of_close (h₁.size_eq.trans (Memo.size_put ..)) ih₁ (ih₂ hi)

/-! ## How much a scan has to do -/

/-- What remains to be done at most: to open each instruction that has no state yet and to look
at each of its predecessors. -/
def work (s : Solver) (memo : Memo) : Nat :=
  ∑ i ∈ Finset.range s.flow.size,
    if (memo.find? i).isSome then 0 else (s.flow.preds i).length + 1

/-- Giving a state to an instruction without one leaves less to be done. -/
theorem work_put (hsize : memo.size = s.flow.size) {p : InstrId} (hp : p < s.flow.size)
    (hnone : memo.find? p = none) (state : State) :
    s.work (memo.put p state) + ((s.flow.preds p).length + 1) = s.work memo := by
  have hmem : p ∈ Finset.range s.flow.size := Finset.mem_range.mpr hp
  unfold work
  rw [← Finset.add_sum_erase _ _ hmem, ← Finset.add_sum_erase _ _ hmem,
    Memo.find?_put_self (by rw [hsize]; exact hp), hnone]
  have hrest : ∀ i ∈ (Finset.range s.flow.size).erase p,
      (if ((memo.put p state).find? i).isSome then 0 else (s.flow.preds i).length + 1)
        = if (memo.find? i).isSome then 0 else (s.flow.preds i).length + 1 := by
    intro i hi
    rw [Memo.find?_put_ne (Finset.ne_of_mem_erase hi)]
  rw [Finset.sum_congr rfl hrest, Option.isSome_some, if_pos rfl, Option.isSome_none,
    if_neg Bool.false_ne_true, Nat.zero_add]
  exact Nat.add_comm _ _

/-- The more states are found, the less is to be done. -/
theorem work_le (h : ∀ i, (memo.find? i).isSome → (memo'.find? i).isSome) :
    s.work memo' ≤ s.work memo := by
  refine Finset.sum_le_sum fun i _ => ?_
  by_cases hi : (memo.find? i).isSome
  · rw [if_pos (h i hi)]
    exact Nat.zero_le _
  · rw [if_neg hi]
    split <;> omega

/-- Replacing a state changes nothing in what is to be done. -/
theorem work_put_of_found {p : InstrId} (hp : (memo.find? p).isSome) (state : State) :
    s.work (memo.put p state) = s.work memo := by
  refine Finset.sum_congr rfl fun i _ => ?_
  rw [Memo.find?_put]
  split
  · next h => simp [h.1, hp]
  · rfl

theorem Scan.work_le (h : s.Scan memo rest m memo' m') : s.work memo' ≤ s.work memo :=
  Solver.work_le fun _ hi => h.isSome_find? hi

/-! ## Solving is scanning -/

/-- Whether the states found have a place for each instruction, and predecessors are among
the instructions. -/
structure Fit (s : Solver) (memo : Memo) : Prop where
  size_eq : memo.size = s.flow.size
  lt_size : ∀ {i p : InstrId}, p ∈ s.flow.preds i → p < s.flow.size

theorem Fit.put {s : Solver} (h : s.Fit memo) (i : InstrId) (state : State) :
    s.Fit (memo.put i state) :=
  ⟨(Memo.size_put ..).trans h.size_eq, h.lt_size⟩

theorem Fit.scan (hf : s.Fit memo) (h : s.Scan memo rest m memo' m') : s.Fit memo' :=
  ⟨h.size_eq.trans hf.size_eq, hf.lt_size⟩

/-- **A scan always ends.** -/
theorem exists_scan (hf : s.Fit memo) (hrest : ∀ p ∈ rest, p < s.flow.size) :
    ∃ memo' m', s.Scan memo rest m memo' m' := by
  -- either an instruction is opened, which leaves less to do, or the list gets shorter
  induction hw : s.work memo using Nat.strong_induction_on generalizing memo rest m with
  | _ n ih =>
      induction rest generalizing m with
      | nil => exact ⟨memo, m, .done memo m⟩
      | cons p rest ihrest =>
          rw [List.forall_mem_cons] at hrest
          cases he : s.flow.eligible p with
          | false =>
              obtain ⟨memo', m', h⟩ := ihrest hrest.2
              exact ⟨memo', m', .pass he h⟩
          | true =>
              cases hp : memo.find? p with
              | some state =>
                  obtain ⟨memo', m', h⟩ := ihrest hrest.2
                  exact ⟨memo', m', .found he hp h⟩
              | none =>
                  have hput := work_put hf.size_eq hrest.1 hp .pending
                  obtain ⟨memo₁, m₁, h₁⟩ : ∃ memo₁ m₁,
                      s.Scan (memo.put p .pending) (s.flow.preds p) {} memo₁ m₁ :=
                    ih _ (by omega) (hf.put p .pending) (fun q hq => hf.lt_size hq) rfl
                  have hpend := h₁.find?_eq (Memo.find?_put_self
                    (show p < memo.size by rw [hf.size_eq]; exact hrest.1) .pending)
                  have hle := h₁.work_le
                  -- the instruction has had a state since it was opened, so closing it is free
                  rw [← work_put_of_found (by rw [hpend]; rfl) (s.close p m₁)] at hle
                  obtain ⟨memo', m', h₂⟩ : ∃ memo' m', s.Scan (memo₁.put p (s.close p m₁)) rest
                      (m.join s.tree (s.close p m₁)) memo' m' :=
                    ih _ (by omega) (((hf.put p .pending).scan h₁).put p (s.close p m₁)) hrest.2 rfl
                  exact ⟨memo', m', .opened he hp h₁ h₂⟩

/-- The stack machine does what a scan does. It takes a step for each predecessor in the list,
and for each instruction that is opened on the way as many steps as that takes away from the
work to be done. -/
theorem Scan.run (h : s.Scan memo rest m memo' m') (hf : s.Fit memo)
    (hrest : ∀ p ∈ rest, p < s.flow.size) :
    ∃ k, k + s.work memo' = rest.length + s.work memo ∧ ∀ n i below,
      s.run (n + k) memo ({ instr := i, rest, merged := m } :: below)
        = s.run n memo' ({ instr := i, rest := [], merged := m' } :: below) := by
  induction h with
  | done memo m => exact ⟨0, by simp, fun n i below => rfl⟩
  | @pass memo memo' p rest m m' he _ ih =>
      rw [List.forall_mem_cons] at hrest
      obtain ⟨k, hk, hrun⟩ := ih hf hrest.2
      refine ⟨k + 1, by rw [List.length_cons]; omega, fun n i below => ?_⟩
      rw [← Nat.add_assoc, Solver.run]
      simp only [he, Bool.false_eq_true, if_false]
      exact hrun n i below
  | @found memo memo' p rest m m' state he hp _ ih =>
      rw [List.forall_mem_cons] at hrest
      obtain ⟨k, hk, hrun⟩ := ih hf hrest.2
      refine ⟨k + 1, by rw [List.length_cons]; omega, fun n i below => ?_⟩
      rw [← Nat.add_assoc, Solver.run]
      simp only [he, if_true, hp]
      exact hrun n i below
  | @opened memo memo₁ memo' p rest m m₁ m' he hp h₁ h₂ ih₁ ih₂ =>
      rw [List.forall_mem_cons] at hrest
      have hf₁ := hf.put p .pending
      obtain ⟨k₁, hk₁, hrun₁⟩ := ih₁ hf₁ fun q hq => hf.lt_size hq
      obtain ⟨k₂, hk₂, hrun₂⟩ := ih₂ ((hf₁.scan h₁).put p (s.close p m₁)) hrest.2
      have hput := work_put hf.size_eq hrest.1 hp .pending
      have hpend := h₁.find?_eq (Memo.find?_put_self
        (show p < memo.size by rw [hf.size_eq]; exact hrest.1) .pending)
      rw [work_put_of_found (by rw [hpend]; rfl)] at hk₂
      -- one step to open the predecessor and one to close it, which opening it has paid for
      refine ⟨k₂ + 1 + k₁ + 1, by rw [List.length_cons]; omega, fun n i below => ?_⟩
      calc s.run (n + (k₂ + 1 + k₁ + 1)) memo
            ({ instr := i, rest := p :: rest, merged := m } :: below)
          = s.run (n + k₂ + 1 + k₁) (memo.put p .pending)
              (s.frame p :: { instr := i, rest, merged := m } :: below) := by
            rw [show n + (k₂ + 1 + k₁ + 1) = n + k₂ + 1 + k₁ + 1 by omega, Solver.run]
            simp only [he, if_true, hp]
        _ = s.run (n + k₂ + 1) memo₁
              ({ instr := p, rest := [], merged := m₁ } ::
                { instr := i, rest, merged := m } :: below) :=
            hrun₁ (n + k₂ + 1) p _
        _ = s.run (n + k₂) (memo₁.put p (s.close p m₁))
              (s.joined { instr := i, rest, merged := m } (s.close p m₁) :: below) := by
            rw [Solver.run]
        _ = s.run n memo' ({ instr := i, rest := [], merged := m' } :: below) := hrun₂ n i below

end Solver

/-- The bound for the number of steps, as a sum over all instructions. -/
theorem Flow.effort_eq (f : Flow) :
    f.effort = (∑ i ∈ Finset.range f.size, ((f.preds i).length + 1)) + 1 := by
  have hmap : f.instrs.toList.map (fun i => i.preds.length + 1)
      = (List.range f.size).map fun i => (f.preds i).length + 1 := by
    refine List.ext_getElem (by simp [size]) fun i h₁ h₂ => ?_
    have hi : i < f.instrs.size := by simpa using h₁
    simp [preds, instr, Array.getD_eq_getD_getElem?, hi]
  have hsum : f.effort = (f.instrs.toList.map fun i => i.preds.length + 1).sum + 1 := by
    rw [effort, List.sum, List.foldr_map]
  rw [hsum, hmap]
  rfl

namespace Solver

variable {s : Solver} {memo memo' : Memo} {m' : Merge}

theorem work_lt_effort (s : Solver) (memo : Memo) : s.work memo < s.flow.effort := by
  rw [Flow.effort_eq]
  refine Nat.lt_succ_of_le (Finset.sum_le_sum fun i _ => ?_)
  split <;> omega

/-- The steps suffice: the walk from an instruction without a state ends, and a higher bound for its
steps changes nothing. -/
theorem run_of_scan (hf : s.Fit memo) {i : InstrId} (hi : memo.find? i = none)
    (h : s.Scan (memo.put i .pending) (s.flow.preds i) {} memo' m') {bound : Nat}
    (hbound : s.flow.effort ≤ bound) :
    s.run bound (memo.put i .pending) [s.frame i] = (s.close i m', memo'.put i (s.close i m')) := by
  obtain ⟨k, hk, hrun⟩ := h.run (hf.put i .pending) fun p hp => hf.lt_size hp
  have hle : k < s.flow.effort := by
    by_cases hlt : i < s.flow.size
    · have := work_put hf.size_eq hlt hi .pending
      have := s.work_lt_effort memo
      omega
    · -- an instruction that is not in the graph has no predecessors to scan
      have hnil : s.flow.preds i = [] := by
        simp [Flow.preds, Flow.instr_eq_default (Nat.le_of_not_lt hlt)]
      have := s.work_lt_effort (memo.put i .pending)
      rw [hnil, List.length_nil] at hk
      omega
  obtain ⟨n, hn⟩ : ∃ n, bound = n + 1 + k := ⟨bound - 1 - k, by omega⟩
  show s.run bound _ [{ instr := i, rest := s.flow.preds i }] = _
  rw [hn, hrun (n + 1) i [], Solver.run]

/-- **Solving is scanning.** Where an instruction has no state yet, solving scans all of its
predecessors and closes it. -/
theorem solve_of_scan (hf : s.Fit memo) {i : InstrId} (hi : memo.find? i = none)
    (h : s.Scan (memo.put i .pending) (s.flow.preds i) {} memo' m') :
    s.solve memo i = (s.close i m', memo'.put i (s.close i m')) := by
  unfold solve
  rw [hi]
  exact run_of_scan hf hi h (Nat.le_refl _)

/-- What solving does: it looks up a state, or scans and closes. -/
theorem solve_cases (hf : s.Fit memo) (i : InstrId) :
    (∃ state, memo.find? i = some state ∧ s.solve memo i = (state, memo)) ∨
      memo.find? i = none ∧ ∃ memo' m', s.Scan (memo.put i .pending) (s.flow.preds i) {} memo' m' ∧
        s.solve memo i = (s.close i m', memo'.put i (s.close i m')) := by
  cases hi : memo.find? i with
  | some state => exact .inl ⟨state, rfl, by rw [solve, hi]⟩
  | none =>
      obtain ⟨memo', m', h⟩ := exists_scan (m := {}) (hf.put i .pending)
        fun p hp => hf.lt_size hp
      exact .inr ⟨rfl, memo', m', h, solve_of_scan hf hi h⟩

theorem fit_empty (hl : s.flow.Linked) : s.Fit (Memo.empty s.flow) :=
  ⟨Memo.size_empty _, hl.lt_size⟩

theorem fit_empty_of_preds (hflow : ∀ i < s.flow.size, ∀ p ∈ s.flow.preds i, p < s.flow.size) :
    s.Fit (Memo.empty s.flow) :=
  ⟨Memo.size_empty _, fun hp => hflow _ (Flow.lt_size_of_mem_preds hp) _ hp⟩

/-- What the first solve does: it scans and closes. -/
theorem exists_scan_start (hf : s.Fit (Memo.empty s.flow)) (i : InstrId) :
    ∃ memo' m', s.Scan (Memo.start s.flow i) (s.flow.preds i) {} memo' m' ∧
      s.solve (Memo.empty s.flow) i = (s.close i m', memo'.put i (s.close i m')) := by
  rcases solve_cases hf i with ⟨state, hstate, -⟩ | ⟨-, h⟩
  · simp at hstate
  · exact h

/-- The states found after some solves, one after the other. -/
def memoAfter (s : Solver) (asked : List InstrId) : Memo :=
  asked.foldl (fun memo i => (s.solve memo i).2) (Memo.empty s.flow)

/-- What holds of an empty memo and is kept by every solve holds after all solves. -/
theorem memoAfter_induction {P : Memo → Prop} (hempty : P (Memo.empty s.flow))
    (hsolve : ∀ memo i, P memo → P (s.solve memo i).2) (asked : List InstrId) :
    P (s.memoAfter asked) := by
  unfold memoAfter
  generalize Memo.empty s.flow = memo at hempty
  induction asked generalizing memo with
  | nil => exact hempty
  | cons i asked ih => exact ih _ (hsolve memo i hempty)

end Solver

end ComponentAudit
