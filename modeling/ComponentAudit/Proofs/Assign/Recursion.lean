import ComponentAudit.Proofs.Assign.Walk

set_option autoImplicit false

/-! # The recursion behind the walk

The state at an instruction, found by calling the same function on its predecessors
(`Solver.visit`). Nothing bounds the depth of these calls, so the recursion is a least fixed
point with an answer only where it ends.

Main statement: `Solver.visit_memoAfter`. From every memo that earlier solves can leave, the
recursion ends, and the walk with a stack of frames finds the same state and leaves the same memo.
-/

namespace ComponentAudit.Solver

/-- The state at an instruction, with the states found on the way, by recursion: a remembered
state is the answer. Otherwise the instruction is marked as pending, the states at its eligible
predecessors are found and merged in their order, what the instruction writes is added, and the
state is remembered. -/
def visit (s : Solver) (memo : Memo) (i : InstrId) : Option (State × Memo) :=
  match memo.find? i with
  | some state => some (state, memo)
  | none => do
    let found ← (s.flow.preds i).foldlM (fun found p => do
      if s.flow.eligible p then
        let r ← s |>.visit found.2 p
        return (found.1.join s.tree r.1, r.2)
      else
        return found) (({} : Merge), memo.put i .pending)
    return (s.close i found.1, found.2.put i (s.close i found.1))
partial_fixpoint

/-- What looking at one predecessor adds to the merge and to the states found. -/
def gather (s : Solver) (found : Merge × Memo) (p : InstrId) : Option (Merge × Memo) :=
  if s.flow.eligible p then do
    let r ← s.visit found.2 p
    return (found.1.join s.tree r.1, r.2)
  else
    return found

variable {s : Solver} {memo memo' : Memo} {rest : List InstrId} {m m' : Merge} {i : InstrId}

theorem visit_of_found {state : State} (h : memo.find? i = some state) :
    s.visit memo i = some (state, memo) := by
  rw [visit, h]

theorem visit_of_gathered (h : memo.find? i = none)
    (hg : (s.flow.preds i).foldlM s.gather (({} : Merge), memo.put i .pending)
      = some (m', memo')) :
    s.visit memo i = some (s.close i m', memo'.put i (s.close i m')) := by
  rw [visit, h]
  show (s.flow.preds i).foldlM s.gather (({} : Merge), memo.put i .pending) >>= _ = _
  rw [hg]
  rfl

/-- The recursion does what a scan does: each predecessor that the scan opens is a call, and the
predecessors scanned in between are those of the call. -/
theorem Scan.gather (h : s.Scan memo rest m memo' m') :
    rest.foldlM s.gather (m, memo) = some (m', memo') := by
  induction h with
  | done => rfl
  | pass he _ ih =>
      rw [List.foldlM_cons, Solver.gather, he]
      exact ih
  | found he hp _ ih =>
      rw [List.foldlM_cons, Solver.gather, he, if_pos rfl, visit_of_found hp]
      exact ih
  | opened he hp _ _ ih₁ ih₂ =>
      rw [List.foldlM_cons, Solver.gather, he, if_pos rfl, visit_of_gathered hp ih₁]
      exact ih₂

/-- Where the states found fit the graph, the recursion ends with the answer of the walk. -/
theorem visit_of_fit (hf : s.Fit memo) (i : InstrId) : s.visit memo i = some (s.solve memo i) := by
  rcases solve_cases hf i with ⟨state, hi, hsolve⟩ | ⟨hi, memo', m', hscan, hsolve⟩
  · rw [hsolve, visit_of_found hi]
  · rw [hsolve, visit_of_gathered hi hscan.gather]

/-- Solving leaves states that fit the graph. -/
theorem Fit.solve (hf : s.Fit memo) (i : InstrId) : s.Fit (s.solve memo i).2 := by
  rcases solve_cases hf i with ⟨state, _, hsolve⟩ | ⟨_, memo', m', hscan, hsolve⟩
  · rw [hsolve]
    exact hf
  · rw [hsolve]
    exact ((hf.put i .pending).scan hscan).put i _

/-- **The walk with a stack is the recursion.** On every graph whose predecessors are
instructions of it, with cycles or without, and from every memo that solves before may have left,
the recursion ends, and solving answers its state and leaves its memo. -/
theorem visit_memoAfter (s : Solver)
    (hflow : ∀ i < s.flow.size, ∀ p ∈ s.flow.preds i, p < s.flow.size) (asked : List InstrId)
    (i : InstrId) : s.visit (s.memoAfter asked) i = some (s.solve (s.memoAfter asked) i) := by
  have hfit : s.Fit (s.memoAfter asked) :=
    memoAfter_induction (fit_empty_of_preds hflow) (fun _ j hf => hf.solve j) asked
  exact visit_of_fit hfit i

/-- A loop around two stores, the first of which is also its own predecessor. -/
def loop : Solver where
  tree :=
    { nodes := #[{ kind := .file "F", children := [1] },
        { kind := .block, parent := some 0, children := [2, 3] },
        { kind := .assign, parent := some 1 }, { kind := .assign, parent := some 1 }]
      root := 0 }
  flow :=
    let f : Flow := { owner := 0 }
    let f := (((f.push .enter none).push .call none).push .call none).push .sink none
    ((((f.connect 0 1).connect 1 1).connect 2 1).connect 1 2).connect 2 3
  matcher := fun i =>
    if i = 1 then some (.field { decl := 5 } { origin := .parameter 7, anchor := some 2 })
    else if i = 2 then some (.field { decl := 6 } { origin := .parameter 8, anchor := some 3 })
    else none

/-- What is found at the second store depends on whether the first was asked for before: it is
then solved while the first is pending. -/
theorem visit_memoAfter_loop :
    (∀ i < loop.flow.size, ∀ p ∈ loop.flow.preds i, p < loop.flow.size) ∧
      loop.visit (loop.memoAfter []) 2 = some (loop.solve (loop.memoAfter []) 2) ∧
      loop.visit (loop.memoAfter [1]) 2 = some (loop.solve (loop.memoAfter [1]) 2) ∧
      (loop.solve (loop.memoAfter []) 2).1 ≠ (loop.solve (loop.memoAfter [1]) 2).1 := by
  have hflow : ∀ i < loop.flow.size, ∀ p ∈ loop.flow.preds i, p < loop.flow.size := by
    decide +kernel
  exact ⟨hflow, visit_memoAfter loop hflow [] 2, visit_memoAfter loop hflow [1] 2,
    by decide +kernel⟩

end ComponentAudit.Solver
