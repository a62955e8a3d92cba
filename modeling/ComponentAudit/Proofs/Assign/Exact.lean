import ComponentAudit.Proofs.Assign.Meet
import ComponentAudit.Proofs.Assign.Walk

set_option autoImplicit false

/-! # States of graphs without cycles

In a graph whose eligible predecessors form no cycle the state at an instruction says exactly what
happens on the chains of eligible predecessors that lead back from it: a field is assigned when
every chain has a write to it, and what is known of the write sums up the writes that come last
on the chains (`Solver.Exact`).

Main statement: `Solver.solve_exact`, for every sequence of solves with one memo. Its step is
`Solver.Joined.close`: from exact states at the predecessors of an instruction comes an exact
state there. The walk meets no pending state, because a pending instruction leads back to the
one that is being scanned.
-/

namespace ComponentAudit

/-! ## Chains of predecessors -/

namespace Flow

/-- Whether an instruction has another one as an eligible predecessor. -/
def Feeds (f : Flow) (i p : InstrId) : Prop := p ∈ f.preds i ∧ f.eligible p = true

/-- The eligible predecessors of an instruction, in order. -/
def feeders (f : Flow) (i : InstrId) : List InstrId := (f.preds i).filter f.eligible

theorem mem_feeders {f : Flow} {i p : InstrId} : p ∈ f.feeders i ↔ f.Feeds i p :=
  List.mem_filter

/-- A chain of eligible predecessors from an instruction backwards, as long as it goes. -/
inductive Chain (f : Flow) : InstrId → List InstrId → Prop
  | last {i : InstrId} : (∀ p, ¬ f.Feeds i p) → Chain f i [i]
  | more {i p : InstrId} {c : List InstrId} : f.Feeds i p → Chain f p c → Chain f i (i :: c)

end Flow

namespace Solver

/-- What an instruction writes to a field. -/
def writeOf? (s : Solver) (f : Field) (i : InstrId) : Option Assignment :=
  match s.matcher i with
  | some (.field g a) => if g.decl = f.decl then some a else none
  | _ => none

/-- The write to a field that comes first on a chain, which is the last one that is performed. -/
def nearest? (s : Solver) (f : Field) (c : List InstrId) : Option Assignment :=
  c.findSome? (s.writeOf? f)

/-- Whether all chains from an instruction have a write to a field. -/
def Covers (s : Solver) (f : Field) (i : InstrId) : Prop :=
  ∀ c, s.flow.Chain i c → (s.nearest? f c).isSome

/-- The nearest writes to a field on the chains from an instruction. -/
def nearestWrites (s : Solver) (f : Field) (i : InstrId) : Set Assignment :=
  {a | ∃ c, s.flow.Chain i c ∧ s.nearest? f c = some a}

/-- A state that says what happens on the chains from an instruction. -/
structure Exact (s : Solver) (i : InstrId) (state : State) : Prop where
  known : ∃ k, state = .known k
  /-- There is a chain, so that the rest says something. -/
  chain : ∃ c, s.flow.Chain i c
  assigns_iff : ∀ f, state.assigns f = true ↔ s.Covers f i
  sums : ∀ f a, state.get? f = some a → a.Sums s.tree (s.nearestWrites f i)

/-- A merge of exact states at some instructions. -/
structure Joined (s : Solver) (ps : List InstrId) (m : Merge) : Prop where
  none_iff : m.assigned = none ↔ ps = []
  chain : ∀ p ∈ ps, ∃ c, s.flow.Chain p c
  get_iff : ∀ (A : Assigned) f, m.assigned = some A →
    ((A.get? f).isSome = true ↔ ∀ p ∈ ps, s.Covers f p)
  sums : ∀ (A : Assigned) f a, m.assigned = some A → A.get? f = some a →
    a.Sums s.tree {b | ∃ p ∈ ps, b ∈ s.nearestWrites f p}

variable {s : Solver} {ps : List InstrId} {m : Merge} {i p : InstrId}

theorem joined_nil (s : Solver) : s.Joined [] {} where
  none_iff := by simp
  chain := by simp
  get_iff := by
    intro A f h
    cases h
  sums := by
    intro A f a h
    cases h

/-- Joining an exact state. -/
theorem Joined.join (ht : s.tree.WellFormed) (h : s.Joined ps m) {state : State}
    (he : s.Exact p state) : s.Joined (ps ++ [p]) (m.join s.tree state) := by
  obtain ⟨k, rfl⟩ := he.known
  have hcovers (f : Field) : (k.assigned.get? f).isSome = true ↔ s.Covers f p := he.assigns_iff f
  have hsums (f : Field) (a : Assignment) (ha : k.assigned.get? f = some a) := he.sums f a ha
  have hchain : ∀ q ∈ ps ++ [p], ∃ c, s.flow.Chain q c := by
    intro q hq
    rcases List.mem_append.mp hq with hq | hq
    · exact h.chain q hq
    · rw [List.mem_singleton.mp hq]
      exact he.chain
  cases hm : m.assigned with
  | none =>
      -- the first state is taken over as it is
      have hps : ps = [] := h.none_iff.mp hm
      refine ⟨by simp [Merge.join], hchain, ?_, ?_⟩
      · intro A f hA
        simp only [Merge.join, hm, Option.some.injEq] at hA
        simp [← hA, hps, hcovers]
      · intro A f a hA ha
        simp only [Merge.join, hm, Option.some.injEq] at hA
        simpa [hps] using hsums f a (hA ▸ ha)
  | some current =>
      refine ⟨by simp [Merge.join], hchain, ?_, ?_⟩
      · intro A f hA
        simp only [Merge.join, hm, Option.some.injEq] at hA
        have hps := h.get_iff current f hm
        rw [← hA, Assigned.get?_meet, List.forall_mem_append, ← hps, List.forall_mem_singleton,
          ← hcovers]
        cases current.get? f <;> simp
      · intro A f a hA ha
        simp only [Merge.join, hm, Option.some.injEq] at hA
        rw [← hA, Assigned.get?_meet] at ha
        obtain ⟨x, hx, hy⟩ := Option.bind_eq_some_iff.mp ha
        obtain ⟨y, hky, rfl⟩ := Option.map_eq_some_iff.mp hy
        have hset : {b | ∃ q ∈ ps ++ [p], b ∈ s.nearestWrites f q}
            = {b | ∃ q ∈ ps, b ∈ s.nearestWrites f q} ∪ s.nearestWrites f p := by
          ext b
          simp [or_and_right, exists_or]
        rw [hset]
        exact (h.sums current f x hm hx).meet ht (hsums f y hky)

/-! ## Closing an instruction -/

theorem nearest?_cons (s : Solver) (f : Field) (i : InstrId) (c : List InstrId) :
    s.nearest? f (i :: c) = (s.writeOf? f i).or (s.nearest? f c) := by
  unfold nearest?
  cases h : s.writeOf? f i <;> simp [h]

/-- What is known after an instruction: its own write, and otherwise what was known before. -/
theorem get?_close (s : Solver) (i : InstrId) (m : Merge) (f : Field) :
    (s.close i m).get? f = (s.writeOf? f i).or ((m.assigned.getD []).get? f) := by
  unfold close writeOf?
  cases s.matcher i with
  | none => rfl
  | some w =>
      cases w with
      | unknown a => rfl
      | field g a =>
          show ((m.assigned.getD []).set g a).get? f = _
          rw [Assigned.get?_set]
          by_cases h : g.decl = f.decl <;> simp [h]

theorem close_eq_known (s : Solver) (i : InstrId) (m : Merge) : ∃ k, s.close i m = .known k := by
  unfold close
  split <;> exact ⟨_, rfl⟩

/-- Chains from an instruction go on with a chain from an eligible predecessor. -/
theorem chain_iff {f : Flow} {i : InstrId} {c : List InstrId} : f.Chain i c ↔
    (f.feeders i = [] ∧ c = [i]) ∨ ∃ p ∈ f.feeders i, ∃ c', f.Chain p c' ∧ c = i :: c' := by
  constructor
  · intro h
    cases h with
    | last h =>
        refine .inl ⟨?_, rfl⟩
        exact List.eq_nil_iff_forall_not_mem.mpr fun p hp => h p (Flow.mem_feeders.mp hp)
    | more h hc => exact .inr ⟨_, Flow.mem_feeders.mpr h, _, hc, rfl⟩
  · rintro (⟨h, rfl⟩ | ⟨p, hp, c', hc, rfl⟩)
    · refine .last fun p hp => ?_
      have := Flow.mem_feeders.mpr hp
      rw [h] at this
      cases this
    · exact .more (Flow.mem_feeders.mp hp) hc

/-- On the chains from an instruction that writes a field its own write comes first. -/
theorem nearest?_of_write {f : Field} {a : Assignment} (hw : s.writeOf? f i = some a)
    {c : List InstrId} (hc : s.flow.Chain i c) : s.nearest? f c = some a := by
  have hhead : ∃ c', c = i :: c' := by
    cases hc with
    | last => exact ⟨[], rfl⟩
    | more => exact ⟨_, rfl⟩
  obtain ⟨c', rfl⟩ := hhead
  rw [nearest?_cons, hw, Option.some_or]

/-- The chains from an instruction that does not write a field all have a write to it when those
from its predecessors do, and there is a predecessor. -/
theorem covers_iff {f : Field} (hw : s.writeOf? f i = none) :
    s.Covers f i ↔ s.flow.feeders i ≠ [] ∧ ∀ p ∈ s.flow.feeders i, s.Covers f p := by
  constructor
  · intro h
    refine ⟨fun hnil => ?_, fun p hp c hc => ?_⟩
    · have := h [i] (chain_iff.mpr (.inl ⟨hnil, rfl⟩))
      simp [nearest?, hw] at this
    · have := h (i :: c) (chain_iff.mpr (.inr ⟨p, hp, c, hc, rfl⟩))
      rwa [nearest?_cons, hw, Option.none_or] at this
  · rintro ⟨hne, h⟩ c hc
    rcases chain_iff.mp hc with ⟨hnil, -⟩ | ⟨p, hp, c', hc', rfl⟩
    · exact absurd hnil hne
    · rw [nearest?_cons, hw, Option.none_or]
      exact h p hp c' hc'

theorem nearestWrites_eq {f : Field} (hw : s.writeOf? f i = none) :
    s.nearestWrites f i = {b | ∃ p ∈ s.flow.feeders i, b ∈ s.nearestWrites f p} := by
  ext b
  constructor
  · rintro ⟨c, hc, hb⟩
    rcases chain_iff.mp hc with ⟨-, rfl⟩ | ⟨p, hp, c', hc', rfl⟩
    · simp [nearest?, hw] at hb
    · rw [nearest?_cons, hw, Option.none_or] at hb
      exact ⟨p, hp, c', hc', hb⟩
  · rintro ⟨p, hp, c, hc, hb⟩
    refine ⟨i :: c, chain_iff.mpr (.inr ⟨p, hp, c, hc, rfl⟩), ?_⟩
    rw [nearest?_cons, hw, Option.none_or, hb]

/-- **From exact states at the predecessors comes an exact state.** -/
theorem Joined.close (h : s.Joined (s.flow.feeders i) m) : s.Exact i (s.close i m) := by
  have hchain : ∃ c, s.flow.Chain i c := by
    cases hps : s.flow.feeders i with
    | nil => exact ⟨[i], chain_iff.mpr (.inl ⟨hps, rfl⟩)⟩
    | cons p ps =>
        have hp : p ∈ s.flow.feeders i := hps ▸ List.mem_cons_self
        obtain ⟨c, hc⟩ := h.chain p hp
        exact ⟨i :: c, chain_iff.mpr (.inr ⟨p, hp, c, hc, rfl⟩)⟩
  refine ⟨s.close_eq_known i m, hchain, ?_, ?_⟩
  · intro f
    rw [State.assigns, get?_close]
    cases hw : s.writeOf? f i with
    | some a =>
        rw [Option.some_or]
        exact ⟨fun _ c hc => by rw [nearest?_of_write hw hc]; rfl, fun _ => rfl⟩
    | none =>
        rw [Option.none_or, covers_iff hw]
        cases hm : m.assigned with
        -- without a predecessor the chain ends here, and nothing is assigned on it
        | none => simp [h.none_iff.mp hm]
        | some A =>
            have hne : s.flow.feeders i ≠ [] := fun hnil => by
              rw [h.none_iff.mpr hnil] at hm
              cases hm
            rw [Option.getD_some, h.get_iff A f hm, and_iff_right hne]
  · intro f a ha
    rw [get?_close] at ha
    cases hw : s.writeOf? f i with
    | some b =>
        rw [hw, Option.some_or] at ha
        cases ha
        have hset : s.nearestWrites f i = {a} := by
          ext b
          obtain ⟨c, hc⟩ := hchain
          constructor
          · rintro ⟨c', hc', hb⟩
            rw [nearest?_of_write hw hc'] at hb
            exact (Option.some.inj hb).symm
          · rintro rfl
            exact ⟨c, hc, nearest?_of_write hw hc⟩
        rw [hset]
        exact .single _ _
    | none =>
        rw [hw, Option.none_or] at ha
        rw [nearestWrites_eq hw]
        cases hm : m.assigned with
        | none => simp [hm] at ha
        | some A => exact h.sums A f a hm (by simpa [hm] using ha)

/-! ## The walk -/

/-- The states found are exact, but for those that are being computed. -/
def Sure (s : Solver) (memo : Memo) : Prop :=
  ∀ i state, memo.find? i = some state → state = .pending ∨ s.Exact i state

theorem Sure.put {memo : Memo} (h : s.Sure memo) {state : State}
    (hs : state = .pending ∨ s.Exact i state) : s.Sure (memo.put i state) :=
  Memo.forall_put h hs

/-- **A scan without cycles.** What is pending leads back to the instruction that is being scanned,
so that no predecessor is pending. A property of the states at the predecessors that passes to their
merge and on to the instruction itself thus holds of all states that are found. -/
theorem Scan.acyclic {P : InstrId → State → Prop} {J : List InstrId → Merge → Prop}
    (hnil : J [] {})
    (hjoin : ∀ ps m p state, J ps m → P p state → J (ps ++ [p]) (m.join s.tree state))
    (hclose : ∀ i m, J (s.flow.feeders i) m → P i (s.close i m))
    (hcycle : ∀ i, ¬ Relation.TransGen s.flow.Feeds i i)
    {memo memo' : Memo} {rest : List InstrId} {m m' : Merge} (h : s.Scan memo rest m memo' m')
    {v : InstrId} (hrest : ∀ p ∈ rest, p ∈ s.flow.preds v)
    (hpending : ∀ u, memo.find? u = some .pending → Relation.ReflTransGen s.flow.Feeds u v)
    (hsure : ∀ i state, memo.find? i = some state → state = .pending ∨ P i state)
    {ps : List InstrId} (hj : J ps m) :
    (∀ i state, memo'.find? i = some state → state = .pending ∨ P i state) ∧
      J (ps ++ rest.filter s.flow.eligible) m' := by
  induction h generalizing v ps with
  | done => exact ⟨hsure, by simpa using hj⟩
  | pass he _ ih =>
      rw [List.forall_mem_cons] at hrest
      simpa [he] using ih hrest.2 hpending hsure hj
  | @found memo _ p rest _ _ state he hp _ ih =>
      rw [List.forall_mem_cons] at hrest
      have hstate : P p state := by
        refine (hsure p state hp).resolve_left ?_
        rintro rfl
        -- a pending predecessor would close a cycle
        exact hcycle v (Relation.TransGen.head' ⟨hrest.1, he⟩ (hpending p hp))
      simpa [he] using ih hrest.2 hpending hsure (hjoin _ _ _ _ hj hstate)
  | @opened memo memo₁ _ p rest _ m₁ _ he hp h₁ _ ih₁ ih₂ =>
      rw [List.forall_mem_cons] at hrest
      obtain ⟨hsure₁, hj₁⟩ := ih₁ (v := p) (fun q hq => hq) (by
        intro u hu
        rw [Memo.find?_put] at hu
        split at hu
        · next h => exact h.1 ▸ .refl
        · exact (hpending u hu).tail ⟨hrest.1, he⟩) (Memo.forall_put hsure (.inl rfl)) hnil
      have hstate : P p (s.close p m₁) := hclose p m₁ hj₁
      have h := ih₂ hrest.2 (fun u hu => hpending u (pending_of_close
        (h₁.size_eq.trans (Memo.size_put ..)) h₁.pending hu))
        (Memo.forall_put hsure₁ (.inr hstate))
        (hjoin _ _ _ _ hj hstate)
      simpa [he] using h

/-- **Without cycles a scan is exact.** -/
theorem Scan.exact (ht : s.tree.WellFormed) (hcycle : ∀ i, ¬ Relation.TransGen s.flow.Feeds i i)
    {memo memo' : Memo} {rest : List InstrId} {m m' : Merge} (h : s.Scan memo rest m memo' m')
    {v : InstrId} (hrest : ∀ p ∈ rest, p ∈ s.flow.preds v)
    (hpending : ∀ u, memo.find? u = some .pending → Relation.ReflTransGen s.flow.Feeds u v)
    (hsure : s.Sure memo) {ps : List InstrId} (hj : s.Joined ps m) :
    s.Sure memo' ∧ s.Joined (ps ++ rest.filter s.flow.eligible) m' :=
  h.acyclic (J := s.Joined) s.joined_nil (fun _ _ _ _ hj he => hj.join ht he)
    (fun _ _ hj => hj.close) hcycle hrest hpending hsure hj

/-- States found between two solves: all of them are exact. -/
structure Settled (s : Solver) (memo : Memo) : Prop where
  fit : s.Fit memo
  exact : ∀ i state, memo.find? i = some state → s.Exact i state

theorem Settled.not_pending {memo : Memo} (h : s.Settled memo) (i : InstrId) :
    memo.find? i ≠ some .pending := by
  intro hi
  obtain ⟨k, hk⟩ := (h.exact i _ hi).known
  cases hk

theorem Settled.solve (ht : s.tree.WellFormed)
    (hcycle : ∀ i, ¬ Relation.TransGen s.flow.Feeds i i) {memo : Memo} (h : s.Settled memo)
    (i : InstrId) : s.Exact i (s.solve memo i).1 ∧ s.Settled (s.solve memo i).2 := by
  rcases solve_cases h.fit i with ⟨state, hi, hsolve⟩ | ⟨hi, memo', m', hscan, hsolve⟩
  · rw [hsolve]
    exact ⟨h.exact i state hi, h⟩
  · rw [hsolve]
    obtain ⟨hsure, hj⟩ := hscan.exact ht hcycle (v := i) (fun p hp => hp) (by
      intro u hu
      rw [Memo.find?_put] at hu
      split at hu
      · next hui => exact hui.1 ▸ .refl
      · exact absurd hu (h.not_pending u))
      (Sure.put (fun j st hj => .inr (h.exact j st hj)) (.inl rfl)) s.joined_nil
    have hexact : s.Exact i (s.close i m') := hj.close
    refine ⟨hexact, ((h.fit.put i .pending).scan hscan).put i _, ?_⟩
    intro j state hj
    refine ((hsure.put (.inr hexact)) j state hj).resolve_left ?_
    rintro rfl
    exact h.not_pending j (pending_of_close (hscan.size_eq.trans (Memo.size_put ..))
      hscan.pending hj)

theorem settled_empty (hf : s.flow.Linked) : s.Settled (Memo.empty s.flow) :=
  ⟨fit_empty hf, fun j state hj => by simp at hj⟩

theorem exact_atSink (ht : s.tree.WellFormed) (hf : s.flow.Linked)
    (hcycle : ∀ i, ¬ Relation.TransGen s.flow.Feeds i i) : s.Exact s.flow.sink s.atSink :=
  ((settled_empty hf).solve ht hcycle s.flow.sink).1

/-- **Solving is exact on graphs without cycles.** Whatever was asked before with the same memo,
the state at an instruction says what happens on all chains of eligible predecessors from it. -/
theorem solve_exact (ht : s.tree.WellFormed) (hf : s.flow.Linked)
    (hcycle : ∀ i, ¬ Relation.TransGen s.flow.Feeds i i) (asked : List InstrId) (i : InstrId) :
    s.Exact i (s.solve (s.memoAfter asked) i).1 := by
  have hsettled : s.Settled (s.memoAfter asked) :=
    memoAfter_induction (settled_empty hf) (fun memo j h => (h.solve ht hcycle j).2) asked
  exact (hsettled.solve ht hcycle i).1

/-- Two branches that store the same parameter at two places come together. -/
def diamond : Solver where
  tree :=
    { nodes := #[{ kind := .file "F", children := [1] },
        { kind := .block, parent := some 0, children := [2, 3] },
        { kind := .assign, parent := some 1 }, { kind := .assign, parent := some 1 }]
      root := 0 }
  flow :=
    let f : Flow := { owner := 0 }
    let f := (((f.push .enter none).push .call none).push .call none).push .sink none
    (((f.connect 0 1).connect 0 2).connect 1 3).connect 2 3
  matcher := fun i =>
    if i = 1 then some (.field { decl := 5 } { origin := .parameter 7, anchor := some 2 })
    else if i = 2 then some (.field { decl := 5 } { origin := .parameter 7, anchor := some 3 })
    else none

theorem solve_exact_diamond : diamond.tree.WellFormed ∧ diamond.flow.Linked ∧
    (∀ i, ¬ Relation.TransGen diamond.flow.Feeds i i) ∧
    diamond.Exact 3 (diamond.solve (diamond.memoAfter [1]) 3).1 := by
  have ht : diamond.tree.WellFormed := by decide +kernel
  have hf : diamond.flow.Linked := by
    have h := ((((Flow.linked_empty 0).push .enter none).push .call none).push .call none).push
      .sink none
    exact (((h.connect (by decide) (by decide)).connect (by decide) (by decide)).connect
      (by decide) (by decide)).connect (by decide) (by decide)
  have hback : ∀ i < 4, ∀ p ∈ diamond.flow.preds i, p < i := by decide +kernel
  have hcycle : ∀ i, ¬ Relation.TransGen diamond.flow.Feeds i i := by
    have hlt {i p : InstrId} (h : Relation.TransGen diamond.flow.Feeds i p) : p < i := by
      have one {i p : InstrId} (h : diamond.flow.Feeds i p) : p < i :=
        hback i (Flow.lt_size_of_mem_preds h.1) p h.1
      induction h with
      | single h => exact one h
      | tail _ h ih => exact Nat.lt_trans (one h) ih
    exact fun i h => Nat.lt_irrefl i (hlt h)
  exact ⟨ht, hf, hcycle, solve_exact ht hf hcycle [1] 3⟩

end Solver

end ComponentAudit
