import ComponentAudit.Proofs.Assign.Exact
import ComponentAudit.Proofs.Assign.Recursion

set_option autoImplicit false

/-! # What solving reaches

Whatever the shape of the graph, the walk from an instruction goes to every instruction that leads
to it over eligible predecessors, and to no other one. While it goes on, what is behind a closed
instruction has a state already (`Solver.Rooted`), and what has a state without being asked for is
behind something that was (`Scan.behind`).

Main statements:

* `Solver.solve_covers`: after each of several solves, the instructions with a state are those
  behind the ones that were asked for. All these states are known, and they never change again.
* `Solver.mem_unknown_iff`: a first solve collects the unknown writes of all instructions behind the
  one that is asked for. What a cycle hides from a field it does not hide from an unknown write,
  because each instruction hands its list on to the one that opened it.
-/

namespace ComponentAudit

namespace Memo

theorem isSome_find?_of_put {m : Memo} {i j : InstrId} {s : State}
    (h : ((m.put i s).find? j).isSome = true) : j = i ∨ (m.find? j).isSome = true := by
  by_cases hj : j = i
  · exact .inl hj
  · rw [find?_put_ne hj] at h
    exact .inr h

/-- The number of remembered states is the number of instructions that have one. -/
theorem count_eq_ncard (m : Memo) : m.count = {j | (m.find? j).isSome = true}.ncard := by
  have hlist : m.toList = (List.range m.size).map m.find? := by
    refine List.ext_getElem (by simp) fun j hj _ => ?_
    have hlt : j < m.size := by simpa using hj
    simp [find?, Array.getD_eq_getD_getElem?, hlt]
  have hset : {j | (m.find? j).isSome = true}
      = ((Finset.range m.size).filter fun j => (m.find? j).isSome = true : Finset InstrId) := by
    ext j
    have hlt (h : (m.find? j).isSome = true) : j < m.size := by
      by_contra hj
      simp [find?, Array.getD_eq_getD_getElem?, Array.getElem?_eq_none (Nat.le_of_not_lt hj)] at h
    simpa using hlt
  calc m.count = (List.range m.size).countP (fun j => (m.find? j).isSome) := by
        rw [count, hlist, List.countP_map]
        rfl
    _ = Nat.count (fun j => (m.find? j).isSome = true) m.size := by
        rw [Nat.count]
        congr 1
        funext j
        simp
    _ = {j | (m.find? j).isSome = true}.ncard := by
        rw [hset, Set.ncard_coe_finset, Nat.count_eq_card_filter_range]

end Memo

namespace Solver

variable {s : Solver} {memo memo' : Memo} {rest : List InstrId} {m m' : Merge} {i j p : InstrId}

/-! ## Instructions that are found -/

/-- After a scan of some predecessors all of them that count have been found. -/
theorem Scan.isSome_of_mem (h : s.Scan memo rest m memo' m') (hfit : s.Fit memo)
    (hrest : ∀ p ∈ rest, p < s.flow.size) {p : InstrId} (hp : p ∈ rest)
    (he : s.flow.eligible p = true) : (memo'.find? p).isSome = true := by
  induction h with
  | done => cases hp
  | pass hpass _ ih =>
      rw [List.forall_mem_cons] at hrest
      rcases List.mem_cons.mp hp with rfl | hp
      · rw [he] at hpass
        cases hpass
      · exact ih hfit hrest.2 hp
  | found _ hfound h ih =>
      rw [List.forall_mem_cons] at hrest
      rcases List.mem_cons.mp hp with rfl | hp
      · rw [h.find?_eq hfound]
        rfl
      · exact ih hfit hrest.2 hp
  | @opened memo memo₁ memo' q rest m m₁ m' _ _ h₁ h₂ _ ih₂ =>
      rw [List.forall_mem_cons] at hrest
      have hfit₁ := ((hfit.put q .pending).scan h₁).put q (s.close q m₁)
      rcases List.mem_cons.mp hp with rfl | hp
      · have hlt : p < memo₁.size := by
          rw [h₁.size_eq, Memo.size_put, hfit.size_eq]
          exact hrest.1
        rw [h₂.find?_eq (Memo.find?_put_self hlt _)]
        rfl
      · exact ih₂ hfit₁ hrest.2 hp

/-- Whether what feeds an instruction with a state has been found. -/
def Rooted (s : Solver) (memo : Memo) : Prop :=
  ∀ x state, memo.find? x = some state → state ≠ .pending → ∀ y, s.flow.Feeds x y →
    (memo.find? y).isSome = true

theorem Rooted.put (h : s.Rooted memo) {state : State}
    (hs : state = .pending ∨ ∀ y, s.flow.Feeds p y → (memo.find? y).isSome = true) :
    s.Rooted (memo.put p state) := by
  refine Memo.forall_put (P := fun x st => st ≠ .pending → ∀ y, s.flow.Feeds x y → _) ?_ ?_
  · intro x st hx hst y hy
    exact Memo.isSome_find?_put (h x st hx hst y hy) _
  · intro hne y hy
    exact Memo.isSome_find?_put (hs.resolve_left hne y hy) _

theorem Scan.rooted (h : s.Scan memo rest m memo' m') (hfit : s.Fit memo)
    (hrest : ∀ p ∈ rest, p < s.flow.size) (hr : s.Rooted memo) : s.Rooted memo' := by
  induction h with
  | done => exact hr
  | pass _ _ ih =>
      rw [List.forall_mem_cons] at hrest
      exact ih hfit hrest.2 hr
  | found _ _ _ ih =>
      rw [List.forall_mem_cons] at hrest
      exact ih hfit hrest.2 hr
  | @opened memo memo₁ _ p _ _ m₁ _ _ _ h₁ _ ih₁ ih₂ =>
      rw [List.forall_mem_cons] at hrest
      have hfit₁ := hfit.put p .pending
      have hpreds : ∀ q ∈ s.flow.preds p, q < s.flow.size := fun q hq => hfit.lt_size hq
      have hr₁ : s.Rooted memo₁ := ih₁ hfit₁ hpreds (hr.put (.inl rfl))
      -- the predecessors of the opened instruction have been looked at when it is closed
      have hr₂ : s.Rooted (memo₁.put p (s.close p m₁)) :=
        hr₁.put (.inr fun q hq => h₁.isSome_of_mem hfit₁ hpreds hq.1 hq.2)
      exact ih₂ ((hfit₁.scan h₁).put p _) hrest.2 hr₂

/-- A scan finds only what is behind an eligible predecessor that it looks at. -/
theorem Scan.behind (h : s.Scan memo rest m memo' m') (hj : (memo'.find? j).isSome = true) :
    (memo.find? j).isSome = true ∨
      ∃ p ∈ rest, s.flow.eligible p = true ∧ Relation.ReflTransGen s.flow.Feeds p j := by
  induction h with
  | done => exact .inl hj
  | pass _ _ ih =>
      refine (ih hj).imp_right ?_
      rintro ⟨q, hq, hreach⟩
      exact ⟨q, List.mem_cons_of_mem _ hq, hreach⟩
  | found _ _ _ ih =>
      refine (ih hj).imp_right ?_
      rintro ⟨q, hq, hreach⟩
      exact ⟨q, List.mem_cons_of_mem _ hq, hreach⟩
  | @opened memo memo₁ _ p rest _ _ _ he _ _ _ ih₁ ih₂ =>
      have hself : ∃ q ∈ p :: rest, s.flow.eligible q = true ∧
          Relation.ReflTransGen s.flow.Feeds q p := ⟨p, List.mem_cons_self, he, .refl⟩
      rcases ih₂ hj with hj | ⟨q, hq, hreach⟩
      · rcases Memo.isSome_find?_of_put hj with rfl | hj
        · exact .inr hself
        · rcases ih₁ hj with hj | ⟨q, hq, hel, hreach⟩
          · rcases Memo.isSome_find?_of_put hj with rfl | hj
            · exact .inr hself
            · exact .inl hj
          · exact .inr ⟨p, List.mem_cons_self, he, .head ⟨hq, hel⟩ hreach⟩
      · exact .inr ⟨q, List.mem_cons_of_mem _ hq, hreach⟩

/-- A state that is there after a scan was there before, or an instruction has been closed
with it. -/
theorem Scan.find?_cases (h : s.Scan memo rest m memo' m') {state : State}
    (hj : memo'.find? j = some state) :
    memo.find? j = some state ∨ ∃ m₁, state = s.close j m₁ := by
  induction h with
  | done => exact .inl hj
  | pass _ _ ih => exact ih hj
  | found _ _ _ ih => exact ih hj
  | @opened memo memo₁ _ p _ _ m₁ _ _ _ h₁ _ ih₁ ih₂ =>
      rcases ih₂ hj with hj | hclosed
      · rw [Memo.find?_put] at hj
        split at hj
        · next hjp =>
          rw [hjp.1, ← Option.some.inj hj]
          exact .inr ⟨m₁, rfl⟩
        · next hother =>
          refine (ih₁ hj).imp_left fun hj => ?_
          rw [Memo.find?_put] at hj
          split at hj
          · next hjp => exact absurd ⟨hjp.1, by rw [h₁.size_eq, Memo.size_put]; exact hjp.2⟩ hother
          · exact hj
      · exact .inr hclosed

/-! ## Several solves -/

/-- What has been found after some instructions were asked for: a known state for each instruction
behind one of them. -/
structure Explored (s : Solver) (asked : List InstrId) (memo : Memo) : Prop where
  fit : s.Fit memo
  known : ∀ {j state}, memo.find? j = some state → ∃ k, state = .known k
  found_iff : ∀ {j}, (memo.find? j).isSome = true ↔
    ∃ i ∈ asked, Relation.ReflTransGen s.flow.Feeds i j

variable {asked : List InstrId}

theorem explored_empty (hf : s.Fit (Memo.empty s.flow)) : s.Explored [] (Memo.empty s.flow) where
  fit := hf
  known := by simp
  found_iff := by simp

theorem Explored.rooted (h : s.Explored asked memo) : s.Rooted memo := by
  intro x state hx _ y hy
  obtain ⟨i, hi, hreach⟩ := h.found_iff.mp (by rw [hx]; rfl)
  exact h.found_iff.mpr ⟨i, hi, hreach.tail hy⟩

/-- Where all states are known, what is behind a found instruction is found. -/
theorem Rooted.found (h : s.Rooted memo)
    (hknown : ∀ {j state}, memo.find? j = some state → ∃ k, state = .known k)
    (hi : (memo.find? i).isSome = true) (hij : Relation.ReflTransGen s.flow.Feeds i j) :
    (memo.find? j).isSome = true := by
  induction hij with
  | refl => exact hi
  | tail _ hp ih =>
      obtain ⟨state, hstate⟩ := Option.isSome_iff_exists.mp ih
      obtain ⟨k, rfl⟩ := hknown hstate
      exact h _ _ hstate (by simp) _ hp

/-- To ask for an instruction that has a state adds nothing: what is behind it was found with it. -/
theorem Explored.again (h : s.Explored asked memo) (hi : (memo.find? i).isSome = true) :
    s.Explored (asked ++ [i]) memo := by
  obtain ⟨q, hq, hqi⟩ := h.found_iff.mp hi
  refine ⟨h.fit, h.known, fun {j} => ?_⟩
  rw [h.found_iff]
  constructor
  · rintro ⟨q', hq', hreach⟩
    exact ⟨q', List.mem_append_left _ hq', hreach⟩
  · rintro ⟨q', hq', hreach⟩
    rcases List.mem_append.mp hq' with hq' | hq'
    · exact ⟨q', hq', hreach⟩
    · rw [List.mem_singleton.mp hq'] at hreach
      exact ⟨q, hq, hqi.trans hreach⟩

section Closing

/-! An instruction without a state is asked for: its predecessors are scanned, and it is closed. -/

variable (h : s.Explored asked memo) (hi : i < s.flow.size) (hnone : memo.find? i = none)
  (hscan : s.Scan (memo.put i .pending) (s.flow.preds i) {} memo' m')

include hnone hscan in
theorem find?_closed {state : State} (hj : memo.find? j = some state) :
    (memo'.put i (s.close i m')).find? j = some state := by
  have hne : j ≠ i := by
    rintro rfl
    rw [hnone] at hj
    cases hj
  rw [Memo.find?_put_ne hne]
  apply hscan.find?_eq
  rwa [Memo.find?_put_ne hne]

include h hscan

theorem Explored.known_closed {state : State}
    (hj : (memo'.put i (s.close i m')).find? j = some state) : ∃ k, state = .known k := by
  rw [Memo.find?_put] at hj
  split at hj
  · rw [← Option.some.inj hj]
    exact s.close_eq_known i m'
  · next hother =>
    rcases hscan.find?_cases hj with hj | ⟨m₁, rfl⟩
    · rw [Memo.find?_put] at hj
      split at hj
      · next hji => exact absurd ⟨hji.1, by rw [hscan.size_eq, Memo.size_put]; exact hji.2⟩ hother
      · exact h.known hj
    · exact s.close_eq_known j m₁

theorem Explored.behind_closed (hj : ((memo'.put i (s.close i m')).find? j).isSome = true) :
    ∃ q ∈ asked ++ [i], Relation.ReflTransGen s.flow.Feeds q j := by
  have hself : ∃ q ∈ asked ++ [i], Relation.ReflTransGen s.flow.Feeds q i := ⟨i, by simp, .refl⟩
  rcases Memo.isSome_find?_of_put hj with rfl | hj
  · exact hself
  · rcases hscan.behind hj with hj | ⟨p, hp, hel, hreach⟩
    · rcases Memo.isSome_find?_of_put hj with rfl | hj
      · exact hself
      · obtain ⟨q, hq, hreach⟩ := h.found_iff.mp hj
        exact ⟨q, List.mem_append_left _ hq, hreach⟩
    · exact ⟨i, by simp, .head ⟨hp, hel⟩ hreach⟩

include hi hnone

theorem Explored.closed : s.Explored (asked ++ [i]) (memo'.put i (s.close i m')) := by
  have hfit := h.fit.put i .pending
  have hpreds : ∀ p ∈ s.flow.preds i, p < s.flow.size := fun p hp => h.fit.lt_size hp
  have hrooted : s.Rooted (memo'.put i (s.close i m')) := by
    apply (hscan.rooted hfit hpreds (h.rooted.put (.inl rfl))).put
    exact .inr fun p hp => hscan.isSome_of_mem hfit hpreds hp.1 hp.2
  have hknown {j : InstrId} {state : State}
      (hj : (memo'.put i (s.close i m')).find? j = some state) := h.known_closed hscan hj
  refine ⟨(hfit.scan hscan).put i _, hknown, fun {j} => ⟨h.behind_closed hscan, ?_⟩⟩
  rintro ⟨q, hq, hreach⟩
  refine hrooted.found hknown ?_ hreach
  rcases List.mem_append.mp hq with hq | hq
  · obtain ⟨state, hstate⟩ := Option.isSome_iff_exists.mp (h.found_iff.mpr ⟨q, hq, .refl⟩)
    rw [find?_closed hnone hscan hstate]
    rfl
  · rw [List.mem_singleton.mp hq, Memo.find?_put_self (by rw [(hfit.scan hscan).size_eq]; exact hi)]
    rfl

end Closing

/-- One more solve adds what is behind its instruction, remembers its answer and keeps the states
found before. -/
theorem Explored.solve (h : s.Explored asked memo) (hi : i < s.flow.size) :
    s.Explored (asked ++ [i]) (s.solve memo i).2 ∧
      (s.solve memo i).2.find? i = some (s.solve memo i).1 ∧
      ∀ {j state}, memo.find? j = some state → (s.solve memo i).2.find? j = some state := by
  rcases solve_cases h.fit i with ⟨state, hstate, hsolve⟩ | ⟨hnone, memo', m', hscan, hsolve⟩
  · rw [hsolve]
    exact ⟨h.again (by rw [hstate]; rfl), hstate, id⟩
  · have hsize : i < memo'.size := by
      rw [((h.fit.put i .pending).scan hscan).size_eq]
      exact hi
    rw [hsolve]
    exact ⟨h.closed hi hnone hscan, Memo.find?_put_self hsize _, find?_closed hnone hscan⟩

/-- The scan of the first solve finds all that is behind the instruction asked for. -/
theorem Scan.isSome_of_behind (hf : s.Fit (Memo.empty s.flow))
    (hscan : s.Scan (Memo.start s.flow i) (s.flow.preds i) {} memo' m')
    (hij : Relation.ReflTransGen s.flow.Feeds i j) (hne : j ≠ i) :
    (memo'.find? j).isSome = true := by
  -- an instruction with others behind it is one of the graph, so it gets a state
  obtain ⟨p, hp, -⟩ := (Relation.ReflTransGen.cases_head hij).resolve_left (Ne.symm hne)
  have hexplored := (explored_empty hf).closed (Flow.lt_size_of_mem_preds hp.1)
    (Memo.find?_empty _ i) hscan
  have hfound := hexplored.found_iff.mpr ⟨i, by simp, hij⟩
  rwa [Memo.find?_put_ne hne] at hfound

theorem memoAfter_concat (s : Solver) (asked : List InstrId) (i : InstrId) :
    s.memoAfter (asked ++ [i]) = (s.solve (s.memoAfter asked) i).2 := by
  unfold memoAfter
  rw [List.foldl_append]
  rfl

theorem explored_memoAfter (hflow : ∀ i < s.flow.size, ∀ p ∈ s.flow.preds i, p < s.flow.size)
    (hasked : ∀ i ∈ asked, i < s.flow.size) : s.Explored asked (s.memoAfter asked) := by
  induction asked using List.reverseRecOn with
  | nil => exact explored_empty (fit_empty_of_preds hflow)
  | append_singleton asked i ih =>
      rw [List.forall_mem_append, List.forall_mem_singleton] at hasked
      rw [memoAfter_concat]
      exact ((ih hasked.1).solve hasked.2).1

/-- **Solving ends and covers what is behind.** After any solves on a graph, with cycles or without,
one more solve has a known state for an answer, which is remembered. The instructions with a state
are then exactly those behind the ones asked for, each of them has a known state, and no state found
before has changed. Where there is something to walk for, the walk ends within the bound for its
steps: a higher bound gives the same. -/
theorem solve_covers (s : Solver)
    (hflow : ∀ i < s.flow.size, ∀ p ∈ s.flow.preds i, p < s.flow.size) (asked : List InstrId)
    (hasked : ∀ i ∈ asked, i < s.flow.size) (i : InstrId) (hi : i < s.flow.size) :
    let before := s.memoAfter asked
    let after := (s.solve before i).2
    (∃ k, (s.solve before i).1 = .known k ∧ after.find? i = some (.known k)) ∧
      (∀ j, (after.find? j).isSome = true ↔
        ∃ q ∈ asked ++ [i], Relation.ReflTransGen s.flow.Feeds q j) ∧
      after.count = {j | ∃ q ∈ asked ++ [i], Relation.ReflTransGen s.flow.Feeds q j}.ncard ∧
      (∀ j state, after.find? j = some state → ∃ k, state = .known k) ∧
      (∀ j state, before.find? j = some state → after.find? j = some state) ∧
      (before.find? i = none → ∀ bound, s.flow.effort ≤ bound →
        s.run bound (before.put i .pending) [s.frame i] = s.solve before i) := by
  intro before after
  have hbefore : s.Explored asked before := explored_memoAfter hflow hasked
  obtain ⟨hafter, hanswer, hkeep⟩ := hbefore.solve hi
  obtain ⟨k, hk⟩ := hafter.known hanswer
  refine ⟨⟨k, hk, hanswer.trans (congrArg some hk)⟩, fun j => hafter.found_iff, ?_,
    fun j state => hafter.known, fun j state => hkeep, fun hnone bound hbound => ?_⟩
  · rw [Memo.count_eq_ncard]
    exact congrArg Set.ncard (Set.ext fun j => hafter.found_iff)
  · obtain ⟨memo', m', hscan⟩ := exists_scan (m := {}) (hbefore.fit.put i .pending)
      fun p hp => hbefore.fit.lt_size hp
    rw [run_of_scan hbefore.fit hnone hscan hbound, solve_of_scan hbefore.fit hnone hscan]

/-- A loop around a store that names no field, with an exit for failure and an instruction that
nothing leads to, which both do such a store too. -/
def guardedLoop : Solver where
  tree := Tree.ofFile "F"
  flow :=
    let f : Flow := { owner := 0 }
    let f := (((f.push .enter none).push .jump none).push .call none).push (.exit false) none
    let f := ((f.push (.exit true) none).push .sink none).push .call none
    let f := (((f.connect 0 1).connect 1 2).connect 2 1).connect 1 3
    let f := (((f.connect 2 4).connect 3 5).connect 4 5).connect 6 5
    f.complete 0 5
  matcher := fun i =>
    if i = 2 then some (.unknown { origin := .parameter 7 })
    else if i = 3 then some (.field { decl := 5 } { origin := .mixed })
    else if i = 4 ∨ i = 6 then some (.unknown { origin := .mixed })
    else none

/-- The store is solved while the start of the loop is pending. After the sink has been asked for as
well, all but the exit for failure and the dead instruction have a state. -/
theorem solve_covers_guardedLoop :
    let before := guardedLoop.memoAfter [1]
    let after := (guardedLoop.solve before 5).2
    (∀ i < guardedLoop.flow.size, ∀ p ∈ guardedLoop.flow.preds i, p < guardedLoop.flow.size) ∧
      before.find? 5 = none ∧ before.count = 3 ∧ after.count = 5 ∧
      {j | ∃ q ∈ [1, 5], Relation.ReflTransGen guardedLoop.flow.Feeds q j}.ncard = 5 ∧
      (∀ j, (after.find? j).isSome = true ↔
        ∃ q ∈ [1, 5], Relation.ReflTransGen guardedLoop.flow.Feeds q j) ∧
      (∀ j state, before.find? j = some state → after.find? j = some state) ∧
      ∀ bound, guardedLoop.flow.effort ≤ bound →
        guardedLoop.run bound (before.put 5 .pending) [guardedLoop.frame 5]
          = guardedLoop.solve before 5 := by
  intro before after
  have hflow : ∀ i < guardedLoop.flow.size, ∀ p ∈ guardedLoop.flow.preds i,
      p < guardedLoop.flow.size := by decide +kernel
  have hnone : before.find? 5 = none := by decide +kernel
  have hcount : after.count = 5 := by decide +kernel
  obtain ⟨-, hfound, hncard, -, hkeep, hsteps⟩ :=
    solve_covers guardedLoop hflow [1] (by decide +kernel) 5 (by decide +kernel)
  exact ⟨hflow, hnone, by decide +kernel, hcount, hncard.symm.trans hcount, hfound, hkeep,
    hsteps hnone⟩

/-! ## Unknown writes -/

/-- Whether an instruction behind another one has an unknown write. -/
def UnknownBehind (s : Solver) (i : InstrId) (a : Assignment) : Prop :=
  ∃ j, Relation.ReflTransGen s.flow.Feeds i j ∧ s.matcher j = some (.unknown a)

theorem UnknownBehind.head {a : Assignment} (hp : s.flow.Feeds i p) (h : s.UnknownBehind p a) :
    s.UnknownBehind i a := by
  obtain ⟨j, hj, hmatch⟩ := h
  exact ⟨j, .head hp hj, hmatch⟩

theorem mem_unknown_join {t : Tree} {state : State} {a : Assignment} :
    a ∈ (m.join t state).unknown ↔ a ∈ m.unknown ∨ a ∈ state.unknown := by
  cases state with
  | empty | pending => simp [Merge.join, State.unknown]
  | known k => exact List.mem_append

theorem mem_unknown_close {a : Assignment} :
    a ∈ (s.close i m).unknown ↔ a ∈ m.unknown ∨ s.matcher i = some (.unknown a) := by
  unfold close
  cases hw : s.matcher i with
  | none => simp [Merge.state, State.unknown]
  | some w =>
      cases w with
      | field f b => simp [Merge.state, State.unknown, Merge.write]
      | unknown b => simp [Merge.state, State.unknown, Merge.writeUnknown, eq_comm]

/-- A scan collects nothing but unknown writes behind the predecessors that it looks at. -/
theorem Scan.unknownBehind (h : s.Scan memo rest m memo' m')
    (hmemo : ∀ i state, memo.find? i = some state → ∀ a ∈ state.unknown, s.UnknownBehind i a) :
    (∀ i state, memo'.find? i = some state → ∀ a ∈ state.unknown, s.UnknownBehind i a) ∧
      ∀ a ∈ m'.unknown,
        a ∈ m.unknown ∨ ∃ p ∈ rest, s.flow.eligible p = true ∧ s.UnknownBehind p a := by
  induction h with
  | done => exact ⟨hmemo, fun a ha => .inl ha⟩
  | pass _ _ ih =>
      obtain ⟨hmemo', hall⟩ := ih hmemo
      refine ⟨hmemo', fun a ha => (hall a ha).imp_right ?_⟩
      rintro ⟨q, hq, hbehind⟩
      exact ⟨q, List.mem_cons_of_mem _ hq, hbehind⟩
  | @found memo _ p rest _ _ state he hp _ ih =>
      obtain ⟨hmemo', hall⟩ := ih hmemo
      refine ⟨hmemo', fun a ha => ?_⟩
      rcases hall a ha with ha | ⟨q, hq, hbehind⟩
      · exact (mem_unknown_join.mp ha).imp_right fun ha =>
          ⟨p, List.mem_cons_self, he, hmemo p state hp a ha⟩
      · exact .inr ⟨q, List.mem_cons_of_mem _ hq, hbehind⟩
  | @opened memo memo₁ _ p rest _ m₁ _ he _ _ _ ih₁ ih₂ =>
      obtain ⟨hmemo₁, hall₁⟩ := ih₁ (Memo.forall_put hmemo (by simp [State.unknown]))
      have hclose : ∀ a ∈ (s.close p m₁).unknown, s.UnknownBehind p a := by
        intro a ha
        rcases mem_unknown_close.mp ha with ha | hmatch
        · rcases hall₁ a ha with ha | ⟨q, hq, hel, hbehind⟩
          · cases ha
          · exact hbehind.head ⟨hq, hel⟩
        · exact ⟨p, .refl, hmatch⟩
      obtain ⟨hmemo', hall⟩ := ih₂ (Memo.forall_put hmemo₁ hclose)
      refine ⟨hmemo', fun a ha => ?_⟩
      rcases hall a ha with ha | ⟨q, hq, hbehind⟩
      · exact (mem_unknown_join.mp ha).imp_right fun ha =>
          ⟨p, List.mem_cons_self, he, hclose a ha⟩
      · exact .inr ⟨q, List.mem_cons_of_mem _ hq, hbehind⟩

/-- A scan loses no unknown write, neither one that was there before nor one of an instruction that
it finds: the list of an instruction goes to the one that opened it, and so on up to the one that
is being scanned. -/
theorem Scan.collects (h : s.Scan memo rest m memo' m') {a : Assignment}
    (ha : a ∈ m.unknown ∨ ∃ j, memo.find? j = none ∧ (memo'.find? j).isSome = true ∧
      s.matcher j = some (.unknown a)) : a ∈ m'.unknown := by
  induction h with
  | done =>
      rcases ha with ha | ⟨j, hnone, hsome, -⟩
      · exact ha
      · rw [hnone] at hsome
        cases hsome
  | pass _ _ ih => exact ih ha
  | found _ _ _ ih => exact ih (ha.imp_left fun ha => mem_unknown_join.mpr (.inl ha))
  | @opened memo memo₁ _ p rest m m₁ _ _ _ _ _ ih₁ ih₂ =>
      have hlist (ha : a ∈ (s.close p m₁).unknown) : a ∈ (m.join s.tree (s.close p m₁)).unknown :=
        mem_unknown_join.mpr (.inr ha)
      rcases ha with ha | ⟨j, hnone, hsome, hmatch⟩
      · exact ih₂ (.inl (mem_unknown_join.mpr (.inl ha)))
      · by_cases hjp : j = p
        · exact ih₂ (.inl (hlist (mem_unknown_close.mpr (.inr (hjp ▸ hmatch)))))
        · cases hj : memo₁.find? j with
          | none => exact ih₂ (.inr ⟨j, by rwa [Memo.find?_put_ne hjp], hsome, hmatch⟩)
          | some state =>
              have hcollected : a ∈ m₁.unknown := by
                refine ih₁ (.inr ⟨j, ?_, by rw [hj]; rfl, hmatch⟩)
                rwa [Memo.find?_put_ne hjp]
              exact ih₂ (.inl (hlist (mem_unknown_close.mpr (.inl hcollected))))

theorem unknownBehind_of_mem_solve (hf : s.Fit (Memo.empty s.flow)) {a : Assignment}
    (ha : a ∈ (s.solve (Memo.empty s.flow) i).1.unknown) : s.UnknownBehind i a := by
  obtain ⟨memo', m', hscan, hsolve⟩ := exists_scan_start hf i
  rw [hsolve] at ha
  have hstart : ∀ j state, (Memo.start s.flow i).find? j = some state →
      ∀ b ∈ state.unknown, s.UnknownBehind j b := by
    intro j state hj b hb
    rw [(Memo.of_find?_start hj).2] at hb
    cases hb
  rcases mem_unknown_close.mp ha with ha | hmatch
  · rcases (hscan.unknownBehind hstart).2 a ha with ha | ⟨p, hp, hel, hbehind⟩
    · cases ha
    · exact hbehind.head ⟨hp, hel⟩
  · exact ⟨i, .refl, hmatch⟩

theorem UnknownBehind.mem_solve {a : Assignment} (h : s.UnknownBehind i a)
    (hf : s.Fit (Memo.empty s.flow)) : a ∈ (s.solve (Memo.empty s.flow) i).1.unknown := by
  obtain ⟨j, hreach, hmatch⟩ := h
  obtain ⟨memo', m', hscan, hsolve⟩ := exists_scan_start hf i
  rw [hsolve]
  apply mem_unknown_close.mpr
  by_cases hji : j = i
  · exact .inr (hji ▸ hmatch)
  · refine .inl (hscan.collects (.inr ⟨j, ?_, hscan.isSome_of_behind hf hreach hji, hmatch⟩))
    exact Option.eq_none_iff_forall_ne_some.mpr fun state hj => hji (Memo.of_find?_start hj).1

/-- **No unknown write is lost.** On every graph, with cycles or without, the first solve collects
exactly the unknown writes of the instructions behind the one that is asked for. -/
theorem mem_unknown_iff (s : Solver)
    (hflow : ∀ i < s.flow.size, ∀ p ∈ s.flow.preds i, p < s.flow.size) (i : InstrId)
    (a : Assignment) :
    a ∈ (s.solve (Memo.empty s.flow) i).1.unknown ↔
      ∃ j, Relation.ReflTransGen s.flow.Feeds i j ∧ s.matcher j = some (.unknown a) := by
  have hfit := fit_empty_of_preds hflow
  exact ⟨unknownBehind_of_mem_solve hfit, fun h => UnknownBehind.mem_solve h hfit⟩

/-- The store in the loop is collected, those of the exit for failure and of the dead instruction
are not. -/
theorem mem_unknown_iff_guardedLoop :
    (∀ i < guardedLoop.flow.size, ∀ p ∈ guardedLoop.flow.preds i, p < guardedLoop.flow.size) ∧
      (guardedLoop.solve (Memo.empty guardedLoop.flow) 5).1.unknown
        = [{ origin := .parameter 7 }] ∧
      ∀ a, a ∈ (guardedLoop.solve (Memo.empty guardedLoop.flow) 5).1.unknown ↔
        ∃ j, Relation.ReflTransGen guardedLoop.flow.Feeds 5 j ∧
          guardedLoop.matcher j = some (.unknown a) := by
  have hflow : ∀ i < guardedLoop.flow.size, ∀ p ∈ guardedLoop.flow.preds i,
      p < guardedLoop.flow.size := by decide +kernel
  exact ⟨hflow, by decide +kernel, mem_unknown_iff guardedLoop hflow 5⟩

end Solver

end ComponentAudit
