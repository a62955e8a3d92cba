import ComponentAudit.Proofs.Assign.Trace

set_option autoImplicit false

/-! # Solving over another tree

The walk that finds states looks at the tree for one thing only: the nearest node around the places
of two writes. So two trees that agree on this give the same states, if they agree for the places of
the writes and for what can become of these (`Tree.SameMeets`).

Main statement: `Solver.atSink_congr`, by an induction on the steps of the walk.
-/

namespace ComponentAudit

/-- Two trees have the same nearest nodes around nodes of a class, and these are of the class
too. -/
structure Tree.SameMeets (P : NodeId → Prop) (t u : Tree) : Prop where
  eq : ∀ {a b}, P a → P b → u.commonAncestor? a b = t.commonAncestor? a b
  closed : ∀ {a b c}, P a → P b → t.commonAncestor? a b = some c → P c

/-- Whether a write lies in a node of a class, if it is known where it lies. -/
def Assignment.Within (P : NodeId → Prop) (a : Assignment) : Prop := ∀ n, a.anchor = some n → P n

/-- Whether all writes of fields lie in nodes of a class. -/
def Assigned.Within (P : NodeId → Prop) (m : Assigned) : Prop := ∀ e ∈ m, e.2.Within P

variable {P : NodeId → Prop} {t u : Tree}

namespace Tree.SameMeets

variable (h : t.SameMeets P u)

include h

theorem assignment {a b : Assignment} (ha : a.Within P) (hb : b.Within P) :
    a.meet u b = a.meet t b ∧ (a.meet t b).Within P := by
  unfold Assignment.Within Assignment.meet at *
  cases hx : a.anchor with
  | none => exact ⟨rfl, fun n hn => by cases hn⟩
  | some x =>
      cases hy : b.anchor with
      | none => exact ⟨rfl, fun n hn => by cases hn⟩
      | some y =>
          dsimp only
          rw [h.eq (ha x hx) (hb y hy)]
          exact ⟨rfl, fun n hn => h.closed (ha x hx) (hb y hy) hn⟩

theorem assigned {m other : Assigned} (hm : m.Within P) (ho : other.Within P) :
    m.meet u other = m.meet t other ∧ (m.meet t other).Within P := by
  have hget {f : Field} {b : Assignment} (hb : other.get? f = some b) : b.Within P := by
    obtain ⟨e, he, rfl⟩ := Option.map_eq_some_iff.mp hb
    exact ho e (List.mem_of_find?_eq_some he)
  constructor
  · refine List.filterMap_congr fun e he => Option.map_congr fun b hb => ?_
    rw [(h.assignment (hm e he) (hget hb)).1]
  · intro e he
    obtain ⟨e', he', hmap⟩ := List.mem_filterMap.mp he
    obtain ⟨b, hb, rfl⟩ := Option.map_eq_some_iff.mp hmap
    exact (h.assignment (hm e' he') (hget hb)).2

theorem join {m : Merge} {state : State} (hm : (m.assigned.getD []).Within P)
    (hs : state.assigned.Within P) :
    m.join u state = m.join t state ∧ ((m.join t state).assigned.getD []).Within P := by
  cases state with
  | empty | pending => exact ⟨rfl, hm⟩
  | known k =>
      unfold Merge.join
      cases hA : m.assigned with
      | none => exact ⟨rfl, hs⟩
      | some current =>
          rw [hA, Option.getD_some] at hm
          obtain ⟨heq, hwithin⟩ := h.assigned hm hs
          exact ⟨congrArg (fun a => Merge.mk (some a) (m.unknown ++ k.unknown)) heq, hwithin⟩

end Tree.SameMeets

namespace Solver

/-- The same graph and the same writes over another tree. -/
def inTree (s : Solver) (u : Tree) : Solver := { s with tree := u }

/-- Whether all writes to fields lie in nodes of a class. -/
def WritesWithin (P : NodeId → Prop) (s : Solver) : Prop :=
  ∀ i f a, s.matcher i = some (.field f a) → a.Within P

/-- Whether all states found keep to a class of nodes. -/
def MemoWithin (P : NodeId → Prop) (memo : Memo) : Prop :=
  ∀ i state, memo.find? i = some state → state.assigned.Within P

variable {s : Solver}

theorem within_nil (P : NodeId → Prop) : Assigned.Within P [] := fun e he => by cases he

theorem within_close (hw : s.WritesWithin P) (i : InstrId) {m : Merge}
    (hm : (m.assigned.getD []).Within P) : (s.close i m).assigned.Within P := by
  unfold close
  split
  · next f a hmatch =>
    intro e he
    rcases mem_set_cases he with he | ⟨ha, -, -⟩
    · exact hm e he
    · rw [ha]
      exact hw i f a hmatch
  · exact hm
  · exact hm

theorem MemoWithin.put {memo : Memo} (h : MemoWithin P memo) (i : InstrId) {state : State}
    (hs : state.assigned.Within P) : MemoWithin P (memo.put i state) :=
  Memo.forall_put h hs

theorem joined_congr (h : s.tree.SameMeets P u) {fr : Frame} {state : State}
    (hfr : (fr.merged.assigned.getD []).Within P) (hs : state.assigned.Within P) :
    (s.inTree u).joined fr state = s.joined fr state ∧
      ((s.joined fr state).merged.assigned.getD []).Within P := by
  obtain ⟨heq, hwithin⟩ := h.join hfr hs
  exact ⟨congrArg (fun merged => { fr with merged }) heq, hwithin⟩

/-- Step by step, the walk has the same frames and finds the same states. -/
theorem run_congr (h : s.tree.SameMeets P u) (hw : s.WritesWithin P) (n : Nat) {memo : Memo}
    {frames : List Frame} (hmemo : MemoWithin P memo)
    (hframes : ∀ fr ∈ frames, (fr.merged.assigned.getD []).Within P) :
    (s.inTree u).run n memo frames = s.run n memo frames := by
  induction n generalizing memo frames with
  | zero => rfl
  | succ n ih =>
      cases frames with
      | nil => rfl
      | cons fr below =>
          obtain ⟨hfr, hbelow⟩ := List.forall_mem_cons.mp hframes
          have hflow : (s.inTree u).flow = s.flow := rfl
          rw [run, run]
          cases hrest : fr.rest with
          | cons p rest =>
              let opened : Frame := { fr with rest }
              have hopened : (opened.merged.assigned.getD []).Within P := hfr
              have hstack : ∀ fr ∈ opened :: below, (fr.merged.assigned.getD []).Within P :=
                List.forall_mem_cons.mpr ⟨hopened, hbelow⟩
              dsimp only
              rw [hflow]
              cases he : s.flow.eligible p with
              | false => exact ih hmemo hstack
              | true =>
                  cases hp : memo.find? p with
                  | some state =>
                      obtain ⟨heq, hwithin⟩ := joined_congr h hopened (hmemo p state hp)
                      have hrun := ih hmemo (List.forall_mem_cons.mpr ⟨hwithin, hbelow⟩)
                      exact (congrArg (fun fr => run _ n memo (fr :: below)) heq).trans hrun
                  | none =>
                      have hpending : MemoWithin P (memo.put p .pending) :=
                        hmemo.put p (within_nil P)
                      have hframe : ((s.frame p).merged.assigned.getD []).Within P := within_nil P
                      exact ih hpending (List.forall_mem_cons.mpr ⟨hframe, hstack⟩)
          | nil =>
              have hclose := within_close hw fr.instr hfr
              cases below with
              | nil => rfl
              | cons outer below =>
                  obtain ⟨houter, hbelow⟩ := List.forall_mem_cons.mp hbelow
                  obtain ⟨heq, hwithin⟩ := joined_congr h houter hclose
                  have hrun := ih (hmemo.put fr.instr hclose)
                    (List.forall_mem_cons.mpr ⟨hwithin, hbelow⟩)
                  exact (congrArg (fun fr => run _ n _ (fr :: below)) heq).trans hrun

/-- **The tree matters only where writes meet.** -/
theorem atSink_congr (h : s.tree.SameMeets P u) (hw : s.WritesWithin P) :
    (s.inTree u).atSink = s.atSink := by
  have hempty : MemoWithin P (Memo.empty s.flow) := fun i state hi => by simp at hi
  have hframe : ∀ fr ∈ [s.frame s.flow.sink], (fr.merged.assigned.getD []).Within P :=
    List.forall_mem_cons.mpr ⟨within_nil P, fun fr hfr => by cases hfr⟩
  have hpending : MemoWithin P (Memo.start s.flow s.flow.sink) :=
    hempty.put _ (within_nil P)
  have hrun := run_congr h hw s.flow.effort hpending hframe
  unfold atSink solve
  rw [Memo.find?_empty, Memo.find?_empty]
  exact congrArg Prod.fst hrun

end Solver

end ComponentAudit
