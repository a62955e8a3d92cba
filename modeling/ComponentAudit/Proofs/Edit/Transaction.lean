import ComponentAudit.Edit.Fix
import ComponentAudit.Proofs.Edit.Again

set_option autoImplicit false

/-! # Changes that are made as a whole

A change keeps what it did before it was refused, so a refusal is harmless only where everything
that can be refused is looked at first (`Change.Atomic`). Synchronising a builder function is of
this kind: once there is a plan, nothing can be refused any more.

Main statement: `Builder.synchronize_all_or_nothing`.
-/

namespace ComponentAudit

namespace Change

variable {α β : Type} {t : Tree}

theorem run_bind_error {c : Change α} {e : EditError} {u : Tree}
    (h : Change.run c t = (.error e, u)) (f : α → Change β) :
    Change.run (c >>= f) t = (.error e, u) := by
  show StateT.run (ExceptT.run (c >>= f)) t = _
  rw [ExceptT.run_bind, StateT.run_bind]
  rw [show StateT.run (ExceptT.run c) t = (.error e, u) from h]
  rfl

theorem run_get (t : Tree) : Change.run (get : Change Tree) t = (.ok t, t) := rfl

theorem run_needAttached (id : NodeId) : Change.run (Change.needAttached id) t =
    (if t.attached id then .ok () else .error (.detachedNode id), t) := by
  show Change.run (unless t.attached id do throw (.detachedNode id) : Change Unit) t = _
  cases t.attached id <;> rfl

theorem run_needTarget (id : NodeId) : Change.run (Change.needTarget id) t =
    (if t.attached id then .ok () else .error (.staleTarget id), t) := by
  show Change.run (unless t.attached id do throw (.staleTarget id) : Change Unit) t = _
  cases t.attached id <;> rfl

/-- Whether a change that is refused leaves a tree as it is. -/
def Atomic (c : Change α) (t : Tree) : Prop :=
  ∀ e u, Change.run c t = (.error e, u) → u = t

theorem Atomic.of_run_ok {c : Change α} {a : α} {u : Tree} (h : Change.run c t = (.ok a, u)) :
    c.Atomic t := by
  intro e v hrun
  cases h.symm.trans hrun

/-- What follows a look at the tree decides. -/
theorem Atomic.bind {c : Change α} {f : α → Change β} (hread : (Change.run c t).2 = t)
    (hf : ∀ a, Change.run c t = (.ok a, t) → (f a).Atomic t) : Atomic (c >>= f) t := by
  intro e u hrun
  rcases hc : Change.run c t with ⟨r, v⟩
  obtain rfl : v = t := by rw [hc] at hread; exact hread
  cases r with
  | error e' =>
      rw [run_bind_error hc] at hrun
      exact (Prod.mk.inj hrun).2.symm
  | ok a =>
      rw [run_bind_ok hc] at hrun
      exact hf a hc e u hrun

end Change

/-! ## Synchronising -/

namespace Builder

variable {b : Builder} {fw : Framework} {t : Tree}

/-- Without a plan there is no change. -/
theorem run_synchronize_error {e : EditError}
    (h : Source.syncPlan { tree := t, framework := fw } b = .error e) :
    Change.run (b.synchronize fw) t = (.error e, t) := by
  unfold synchronize
  rw [Change.run_bind_ok (Change.run_source fw), Change.run_bind_error]
  rw [Change.run_liftExcept, h]

/-- A plan is that of a task. -/
theorem exists_task_of_plan {plan : Plan}
    (h : Source.syncPlan { tree := t, framework := fw } b = .ok plan) :
    ∃ k, SyncTask.of { tree := t, framework := fw } b = .ok k ∧ k.plan = plan := by
  unfold Source.syncPlan at h
  cases hk : SyncTask.of { tree := t, framework := fw } b with
  | error e =>
      rw [hk] at h
      cases h
  | ok k =>
      rw [hk] at h
      exact ⟨k, rfl, Except.ok.inj h⟩

/-- A refusal is one of the plan, and nothing was changed before it. -/
theorem refused_synchronize (ht : t.WellFormed) {e : EditError} {u : Tree}
    (h : Change.run (b.synchronize fw) t = (.error e, u)) :
    u = t ∧ Source.syncPlan { tree := t, framework := fw } b = .error e := by
  cases hplan : Source.syncPlan { tree := t, framework := fw } b with
  | error e' =>
      rw [run_synchronize_error hplan] at h
      obtain ⟨he, hu⟩ := Prod.mk.inj h
      exact ⟨hu.symm, by rw [Except.error.inj he]⟩
  | ok plan =>
      obtain ⟨k, hk, -⟩ := exists_task_of_plan hplan
      rw [run_synchronize ht hk rfl rfl] at h
      cases h

/-- **Synchronising makes all edits that it planned, or none.** A refusal is one of the plan and
leaves the file as it was. Where there is a plan its edits are made, and the parameters that have no
use after that can always be dropped. -/
theorem synchronize_all_or_nothing (ht : t.WellFormed) :
    (∀ e u, Change.run (b.synchronize fw) t = (.error e, u) →
      u = t ∧ Source.syncPlan { tree := t, framework := fw } b = .error e) ∧
    ∀ plan : Plan, Source.syncPlan { tree := t, framework := fw } b = .ok plan →
      ∃ (mid v : Tree) (removed : List NodeId),
        Change.run plan.apply t = (.ok plan.length, mid) ∧
        Change.run (b.dropUnused fw) mid = (.ok removed.length, v) ∧
        Change.run (b.synchronize fw) t = (.ok (plan.length + removed.length), v) ∧
        v = removed.foldl Tree.detach mid ∧ removed.Nodup ∧
        ∀ p, p ∈ removed ↔ p ∈ mid.parameters b.function ∧ p ∉ v.parameters b.function := by
  constructor
  · intro e u hrun
    exact refused_synchronize ht hrun
  · intro plan hplan
    obtain ⟨k, hk, rfl⟩ := exists_task_of_plan hplan
    obtain ⟨call, lambda, -, hparts, -⟩ := SyncTask.of_eq_ok hk
    generalize hmid : ((Edit.performAll [] k.plan).run t).2 = mid
    have hedited : t.Edited [k.list, k.body] mid := hmid ▸ edited_plan ht hk
    have hparts' : b.Parts mid k.list call lambda k.body := Builder.Parts.edited hparts ht hedited
    generalize hremoved :
      ({ tree := mid, framework := fw } : Source).unused b.function k.body = removed
    have hsub : removed.Sublist (mid.parameters b.function) := hremoved ▸ List.filter_sublist
    have hparent : ∀ p ∈ removed, mid.parent p = some k.list := fun p hp =>
      hparts'.parent_parameter (s := { tree := mid, framework := fw }) hedited.wellFormed
        (hsub.subset hp)
    have hdropped := Tree.dropped_foldl_detach hedited.wellFormed hparts'.kind_list hparent
    refine ⟨mid, removed.foldl Tree.detach mid, removed, ?_, ?_, ?_, rfl, ?_, ?_⟩
    · rw [← hmid]
      exact Plan.run_apply fun e he => (allows_of_task ht hk he).2
    · exact run_dropUnused hparts' hedited.wellFormed hremoved.symm
    · exact run_synchronize ht hk hmid.symm hremoved.symm
    · refine List.Nodup.sublist hsub ?_
      rw [Tree.parameters, hparts'.list_eq]
      exact (hedited.wellFormed.nodup_children _).filter _
    · intro p
      rw [hdropped.parameters_eq hedited.wellFormed, List.mem_filter]
      constructor
      · intro hp
        exact ⟨hsub.subset hp, by simp [hp]⟩
      · rintro ⟨hp, hnot⟩
        by_contra hout
        exact hnot ⟨hp, by simpa using hout⟩

/-- The parameters `old: Int, x: String`. -/
def staleParameters : Draft (List NodeId) := do
  let old ← Draft.parameter "old" (some (.simple "Int")) none
  let x ← Draft.parameter "x" (some (.simple "String")) none
  return [old, x]

/-- The statements `if (c) { attrs.f = x }; attrs.h = x`. -/
def staleStatements : Draft (List NodeId) := do
  let c ← Draft.reference "c"
  let first ← Draft.assignMember "attrs" "f" "x"
  let test ← Draft.ifElse c [first] none
  let stray ← Draft.assignMember "attrs" "h" "x"
  return [test, stray]

/-- A builder function that is behind its props in every way gets three edits and loses one
parameter; taken out of the file, it is refused and stays as it is. -/
theorem synchronize_all_or_nothing_stale :
    let t := ((Source.constructionOf staleParameters staleStatements).run (Tree.ofFile "F")).2
    let b : Builder := { component := { decl := 5, base := 4 }, function := 29 }
    t.WellFormed ∧
      (∃ (plan : Plan) (v : Tree), Source.syncPlan { tree := t, framework := {} } b = .ok plan ∧
        plan.length = 3 ∧ Change.run (b.synchronize {}) t = (.ok (plan.length + 1), v)) ∧
      Change.run (b.synchronize {}) (t.detach 29) = (.error (.detachedNode 29), t.detach 29) := by
  intro t b
  have hfacts : t.WellFormed ∧ ((Source.syncPlan { tree := t, framework := {} } b).map
        List.length).toOption = some 3 ∧
      (Change.run (b.synchronize {}) t).1 = .ok 4 ∧
      (Change.run (b.synchronize {}) (t.detach 29)).1 = .error (.detachedNode 29) := by
    decide +kernel
  obtain ⟨ht, hlength, hok, herror⟩ := hfacts
  refine ⟨ht, ?_, ?_⟩
  · cases hplan : Source.syncPlan { tree := t, framework := {} } b with
    | error e =>
        rw [hplan] at hlength
        cases hlength
    | ok plan =>
        rw [hplan] at hlength
        have hthree : plan.length = 3 := Option.some.inj hlength
        obtain ⟨mid, v, removed, -, -, hrun, -⟩ := (synchronize_all_or_nothing ht).2 plan hplan
        rw [hrun, hthree] at hok
        have hone : removed.length = 1 := by
          have := Except.ok.inj hok
          omega
        exact ⟨plan, v, rfl, hthree, hone ▸ hrun⟩
  · rcases hrun : Change.run (b.synchronize {}) (t.detach 29) with ⟨r, u⟩
    rw [hrun] at herror
    obtain rfl : r = .error (.detachedNode 29) := herror
    rw [((synchronize_all_or_nothing (ht.detach 29)).1 _ _ hrun).1]

end Builder

end ComponentAudit
