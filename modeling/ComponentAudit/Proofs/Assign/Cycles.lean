import ComponentAudit.Proofs.Assign.Reached
import ComponentAudit.Proofs.Flow.Loops

set_option autoImplicit false

/-! # The walk through loops

The walk goes backwards. When it gets to the start of a loop and has not been at the end of its body
yet, it goes through the body while the loop is pending. Then the first instruction of the body has
nothing but pending predecessors, and its state knows nothing, which is passed on to the start.

This does not happen when the walk to the start of a loop always comes by the edge that closes the
loop (`Solver.Funnels`). It does happen when that edge is the only one to leave its end
(`Solver.Stalls`).

Main statements: `Funnels.assigns_atSink` and `Stalls.not_assigns_atSink`, which say for a field
that has been assigned whether that is still known at the sink.
-/

namespace ComponentAudit

namespace Merge

/-- Whether a field is assigned on all paths that have come together so far. -/
def Holds (m : Merge) (fld : Field) : Prop :=
  ∀ A, m.assigned = some A → (A.get? fld).isSome = true

/-- Whether a path has come in that does not assign a field. -/
def Lacks (m : Merge) (fld : Field) : Prop :=
  ∃ A, m.assigned = some A ∧ A.get? fld = none

variable {m : Merge} {fld : Field}

theorem holds_nil : ({} : Merge).Holds fld := by
  intro A h
  cases h

theorem assigned_join_known (t : Tree) (m : Merge) (k : Knowledge) :
    (m.join t (.known k)).assigned ≠ none := by
  simp [join]

theorem Holds.join_known (t : Tree) (h : m.Holds fld) {k : Knowledge}
    (hk : (k.assigned.get? fld).isSome = true) : (m.join t (.known k)).Holds fld := by
  intro A hA
  obtain rfl := Option.some.inj hA
  cases hm : m.assigned with
  | none => exact hk
  | some B =>
      show ((B.meet t k.assigned).get? fld).isSome = true
      obtain ⟨b, hb⟩ := Option.isSome_iff_exists.mp (h B hm)
      obtain ⟨a, ha⟩ := Option.isSome_iff_exists.mp hk
      rw [Assigned.get?_meet, hb, ha]
      rfl

theorem Lacks.join (t : Tree) (h : m.Lacks fld) (state : State) : (m.join t state).Lacks fld := by
  obtain ⟨A, hA, hget⟩ := h
  cases state with
  | empty | pending => exact ⟨A, hA, hget⟩
  | known k =>
      refine ⟨A.meet t k.assigned, by simp [Merge.join, hA], ?_⟩
      rw [Assigned.get?_meet, hget]
      rfl

theorem lacks_join (t : Tree) (m : Merge) {state : State} (hknown : ∃ k, state = .known k)
    (h : state.get? fld = none) : (m.join t state).Lacks fld := by
  obtain ⟨k, rfl⟩ := hknown
  refine ⟨_, rfl, ?_⟩
  cases m.assigned with
  | none => exact h
  | some B =>
      show (B.meet t k.assigned).get? fld = none
      rw [Assigned.get?_meet, show k.assigned.get? fld = none from h]
      cases B.get? fld <;> rfl

end Merge

namespace Solver

variable {s : Solver} {memo memo' : Memo} {rest : List InstrId} {m m' : Merge} {fld : Field}

/-! ## A field that is kept -/

/-- A graph whose loops are closed only where the walk has been: an edge goes on, or its start lies
on every way that the walk can take to its end. The instructions that a field has been assigned at
get all they know from such instructions, and at least some of it from before. -/
structure Funnels (s : Solver) (fld : Field) (rank : InstrId → Nat) (behind : InstrId → Prop) :
    Prop where
  linked : s.flow.Linked
  edge : ∀ {u v : InstrId}, s.flow.Feeds v u → rank u < rank v ∨
    ∀ p, s.flow.Path v p s.flow.sink → (∀ j ∈ p, j = s.flow.sink ∨ s.flow.eligible j = true) →
      u ∈ p
  behind_step : ∀ {u v : InstrId}, behind v → s.writeOf? fld v = none → s.flow.Feeds v u → behind u
  fed : ∀ {v : InstrId}, behind v → s.writeOf? fld v = none →
    ∃ u, s.flow.Feeds v u ∧ rank u < rank v

/-- What is known when the predecessors of an instruction are scanned: how the walk got there, and
that it is inside of nothing lower. -/
structure Track (s : Solver) (rank : InstrId → Nat) (memo : Memo) (v : InstrId) : Prop where
  path : ∃ p, s.flow.Path v p s.flow.sink ∧ ∀ j ∈ p, (memo.find? j).isSome = true ∧
    (j = s.flow.sink ∨ s.flow.eligible j = true)
  above : ∀ x, memo.find? x = some .pending → rank v ≤ rank x

theorem track_start {rank : InstrId → Nat} (hlt : s.flow.sink < s.flow.size) :
    s.Track rank (Memo.start s.flow s.flow.sink) s.flow.sink := by
  refine ⟨⟨[s.flow.sink], .stop _, fun j hj => ?_⟩, fun x hx => ?_⟩
  · rw [List.mem_singleton.mp hj, Memo.find?_start_self hlt]
    exact ⟨rfl, .inl rfl⟩
  · rw [(Memo.of_find?_start hx).1]

/-- When an instruction has been opened and closed, nothing more is pending than before. -/
theorem Track.closed {rank : InstrId → Nat} {v p : InstrId} {memo₁ : Memo} {m₁ : Merge}
    (ht : s.Track rank memo v)
    (h₁ : s.Scan (memo.put p .pending) (s.flow.preds p) {} memo₁ m₁) :
    s.Track rank (memo₁.put p (s.close p m₁)) v := by
  obtain ⟨q, hq, hfound⟩ := ht.path
  refine ⟨⟨q, hq, fun j hj => ⟨?_, (hfound j hj).2⟩⟩, fun x hx => ?_⟩
  · exact Memo.isSome_find?_put (h₁.isSome_find? (Memo.isSome_find?_put (hfound j hj).1 _)) _
  · exact ht.above x (pending_of_close (h₁.size_eq.trans (Memo.size_put ..)) h₁.pending hx)

/-- Whether all states found behind an assignment know of it. -/
def Knows (memo : Memo) (fld : Field) (behind : InstrId → Prop) : Prop :=
  ∀ x state, behind x → memo.find? x = some state → state = .pending ∨ state.assigns fld = true

theorem Knows.put {behind : InstrId → Prop} (h : Knows memo fld behind) {p : InstrId}
    {state : State} (hp : behind p → state = .pending ∨ state.assigns fld = true) :
    Knows (memo.put p state) fld behind := by
  intro x state' hx hfind
  refine Memo.forall_put (P := fun x st => behind x → st = .pending ∨ st.assigns fld = true) ?_ hp x
    state' hfind hx
  intro y st hy hbehind
  exact h y st hbehind hy

theorem exists_known_of_assigns {state : State} (h : state.assigns fld = true) :
    ∃ k, state = .known k ∧ (k.assigned.get? fld).isSome = true := by
  cases state with
  | empty | pending => cases h
  | known k => exact ⟨k, rfl, h⟩

/-- An instruction that does not write a field itself assigns it when all that came in does. -/
theorem assigns_close {v : InstrId} (hm : s.writeOf? fld v = none → m.Holds fld)
    (hsome : s.writeOf? fld v = none → m.assigned ≠ none) : (s.close v m).assigns fld = true := by
  show ((s.close v m).get? fld).isSome = true
  rw [get?_close]
  cases hw : s.writeOf? fld v with
  | some a => rfl
  | none =>
      obtain ⟨A, hA⟩ := Option.ne_none_iff_exists'.mp (hsome hw)
      have := hm hw A hA
      rw [hA]
      exact this

namespace Funnels

variable {rank : InstrId → Nat} {behind : InstrId → Prop} (F : s.Funnels fld rank behind)

include F

/-- An instruction that the walk opens is lower than the one it comes from. -/
theorem track_of_opened {v p : InstrId} (ht : s.Track rank memo v) (hp : p ∈ s.flow.preds v)
    (he : s.flow.eligible p = true) (hnone : memo.find? p = none) (hsize : p < memo.size) :
    rank p < rank v ∧ s.Track rank (memo.put p .pending) p := by
  obtain ⟨q, hq, hfound⟩ := ht.path
  have hlt : rank p < rank v := by
    refine (F.edge ⟨hp, he⟩).resolve_right fun hall => ?_
    have := (hfound p (hall q hq fun j hj => (hfound j hj).2)).1
    rw [hnone] at this
    cases this
  refine ⟨hlt, ⟨p :: q, .step (F.linked.mem_iff.mpr hp) hq, ?_⟩, ?_⟩
  · intro j hj
    rcases List.mem_cons.mp hj with rfl | hj
    · exact ⟨by rw [Memo.find?_put_self hsize]; rfl, .inr he⟩
    · exact ⟨Memo.isSome_find?_put (hfound j hj).1 _, (hfound j hj).2⟩
  · intro x hx
    by_cases hxp : x = p
    · rw [hxp]
    · rw [Memo.find?_put_ne hxp] at hx
      exact Nat.le_of_lt (Nat.lt_of_lt_of_le hlt (ht.above x hx))

/-- A scan finds the field assigned everywhere behind an assignment. -/
theorem scan (h : s.Scan memo rest m memo' m') {v : InstrId}
    (hfit : s.Fit memo) (hrest : ∀ p ∈ rest, p ∈ s.flow.preds v) (ht : s.Track rank memo v)
    (hk : Knows memo fld behind)
    (hm : behind v → s.writeOf? fld v = none → m.Holds fld) :
    Knows memo' fld behind ∧ (behind v → s.writeOf? fld v = none → m'.Holds fld ∧
      ((m.assigned ≠ none ∨ ∃ p ∈ rest, s.flow.eligible p = true ∧ rank p < rank v) →
        m'.assigned ≠ none)) := by
  induction h generalizing v with
  | done memo m =>
      refine ⟨hk, fun hv hw => ⟨hm hv hw, ?_⟩⟩
      rintro (h | ⟨p, hp, -⟩)
      · exact h
      · cases hp
  | @pass memo memo' p rest m m' he _ ih =>
      rw [List.forall_mem_cons] at hrest
      obtain ⟨hk', hm'⟩ := ih hfit hrest.2 ht hk hm
      refine ⟨hk', fun hv hw => ⟨(hm' hv hw).1, fun h => (hm' hv hw).2 (h.imp_right ?_)⟩⟩
      rintro ⟨q, hq, heq, hlt⟩
      rcases List.mem_cons.mp hq with rfl | hq
      · rw [he] at heq
        cases heq
      · exact ⟨q, hq, heq, hlt⟩
  | @found memo memo' p rest m m' state he hp _ ih =>
      rw [List.forall_mem_cons] at hrest
      -- a state that is joined knows of the field, if it is not pending
      have hknown (hv : behind v) (hw : s.writeOf? fld v = none) : state = .pending ∨
          ∃ k, state = .known k ∧ (k.assigned.get? fld).isSome = true :=
        (hk p state (F.behind_step hv hw ⟨hrest.1, he⟩) hp).imp_right exists_known_of_assigns
      obtain ⟨hk', hm'⟩ := ih hfit hrest.2 ht hk fun hv hw => by
        rcases hknown hv hw with rfl | ⟨k, rfl, hget⟩
        · exact hm hv hw
        · exact (hm hv hw).join_known s.tree hget
      refine ⟨hk', fun hv hw => ⟨(hm' hv hw).1, fun h => (hm' hv hw).2 ?_⟩⟩
      rcases hknown hv hw with rfl | ⟨k, rfl, -⟩
      · refine h.imp_right ?_
        rintro ⟨q, hq, heq, hlt⟩
        rcases List.mem_cons.mp hq with rfl | hq
        · have := ht.above _ hp
          omega
        · exact ⟨q, hq, heq, hlt⟩
      · exact .inl (Merge.assigned_join_known s.tree m k)
  | @opened memo memo₁ memo' p rest m m₁ m' he hp h₁ _ ih₁ ih₂ =>
      rw [List.forall_mem_cons] at hrest
      have hsize : p < memo.size := hfit.size_eq ▸ hfit.lt_size hrest.1
      obtain ⟨hlt, ht₁⟩ := F.track_of_opened ht hrest.1 he hp hsize
      have hfit₁ := hfit.put p .pending
      obtain ⟨hk₁, hm₁⟩ := ih₁ hfit₁ (fun q hq => hq) ht₁ (hk.put fun _ => .inl rfl)
        fun _ _ => Merge.holds_nil
      have hclose (hb : behind p) : (s.close p m₁).assigns fld = true :=
        assigns_close (fun hw => (hm₁ hb hw).1) fun hw => by
          obtain ⟨u, hu, hlt⟩ := F.fed hb hw
          exact (hm₁ hb hw).2 (.inr ⟨u, hu.1, hu.2, hlt⟩)
      obtain ⟨k, hkp⟩ := s.close_eq_known p m₁
      obtain ⟨hk', hm'⟩ := ih₂ ((hfit₁.scan h₁).put p _) hrest.2 (ht.closed h₁)
        (hk₁.put fun hb => .inr (hclose hb)) fun hv hw => by
          have hget := hclose (F.behind_step hv hw ⟨hrest.1, he⟩)
          rw [hkp] at hget ⊢
          exact (hm hv hw).join_known s.tree hget
      refine ⟨hk', fun hv hw => ⟨(hm' hv hw).1, fun _ => (hm' hv hw).2 (.inl ?_)⟩⟩
      rw [hkp]
      exact Merge.assigned_join_known s.tree m k

/-- A field that has been assigned when control gets to the sink is assigned there. -/
theorem assigns_atSink (hsink : behind s.flow.sink) (hlt : s.flow.sink < s.flow.size) :
    s.atSink.assigns fld = true := by
  have hfit := fit_empty F.linked
  obtain ⟨memo', m', h, hsolve⟩ := exists_scan_start hfit s.flow.sink
  have hk : Knows (Memo.start s.flow s.flow.sink) fld behind :=
    fun x state _ hx => .inl (Memo.of_find?_start hx).2
  obtain ⟨-, hm⟩ := F.scan h (hfit.put _ _) (fun p hp => hp) (track_start hlt) hk
    fun _ _ => Merge.holds_nil
  rw [atSink, hsolve]
  refine assigns_close (fun hw => (hm hsink hw).1) fun hw => ?_
  obtain ⟨u, hu, hlt⟩ := F.fed hsink hw
  exact (hm hsink hw).2 (.inr ⟨u, hu.1, hu.2, hlt⟩)

end Funnels

/-! ## A field that is lost -/

theorem Scan.lacks (h : s.Scan memo rest m memo' m') (hm : m.Lacks fld) : m'.Lacks fld := by
  induction h with
  | done => exact hm
  | pass _ _ ih => exact ih hm
  | found _ _ _ ih => exact ih (hm.join s.tree _)
  | opened _ _ _ _ _ ih₂ => exact ih₂ (hm.join s.tree _)

/-- Whether no state has been found for the instructions of a set, except that some are pending. -/
def Untold (memo : Memo) (R : InstrId → Prop) : Prop :=
  ∀ x state, R x → memo.find? x = some state → state = .pending

theorem Untold.put_pending {R : InstrId → Prop} (h : Untold memo R) (p : InstrId) :
    Untold (memo.put p .pending) R := by
  intro x state hx hfind
  refine Memo.forall_put (P := fun x st => R x → st = .pending) ?_ (fun _ => rfl) x state hfind hx
  intro y st hy hR
  exact h y st hR hy

/-- A scan of instructions for which there is no state in the end brings nothing in. -/
theorem Scan.eq_of_untold (h : s.Scan memo rest m memo' m') (hfit : s.Fit memo)
    (hlt : ∀ p ∈ rest, p < s.flow.size) {R : InstrId → Prop}
    (hrest : ∀ p ∈ rest, s.flow.eligible p = true → R p) (hu : Untold memo' R) : m' = m := by
  induction h with
  | done => rfl
  | pass _ _ ih =>
      rw [List.forall_mem_cons] at hrest hlt
      exact ih hfit hlt.2 hrest.2 hu
  | found he hp h ih =>
      rw [List.forall_mem_cons] at hrest hlt
      rw [ih hfit hlt.2 hrest.2 hu, hu _ _ (hrest.1 he) (h.find?_eq hp)]
      rfl
  | @opened memo memo₁ memo' p rest m m₁ m' he _ h₁ h₂ _ _ =>
      rw [List.forall_mem_cons] at hrest hlt
      have hsize : p < memo₁.size := by
        rw [h₁.size_eq, Memo.size_put, hfit.size_eq]
        exact hlt.1
      exact absurd (hu p _ (hrest.1 he) (h₂.find?_eq (Memo.find?_put_self hsize _)))
        (s.close_ne_pending p m₁)

/-- A loop that the walk has to go through while it is pending: apart from its start it is entered
from inside only, and its end leads to the start and nowhere else. From there on the field is not
written. -/
structure Stalls (s : Solver) (fld : Field) (R : InstrId → Prop) (g u : InstrId) : Prop where
  linked : s.flow.Linked
  inner : ∀ {x y : InstrId}, R x → x ≠ g → s.flow.Feeds x y → R y
  start : R g
  last : R u
  ne : u ≠ g
  feeds : s.flow.Feeds g u
  only : ∀ {v : InstrId}, u ∈ s.flow.preds v → v = g
  reached : ∀ {x : InstrId}, R x → s.flow.eligible x = true → s.flow.Reaches g x
  silent : ∀ {x : InstrId}, s.flow.Reaches g x → s.writeOf? fld x = none

namespace Stalls

variable {R : InstrId → Prop} {g u : InstrId} (L : s.Stalls fld R g u)

include L

/-- What is closed with a merge that lacks the field, or with none, lacks it. -/
theorem get?_close_eq_none {p : InstrId} (hp : s.flow.Reaches g p) {m₁ : Merge}
    (hm₁ : m₁.Lacks fld ∨ m₁.assigned = none) : (s.close p m₁).get? fld = none := by
  rw [get?_close, L.silent hp, Option.none_or]
  rcases hm₁ with ⟨A, hA, hget⟩ | hm₁
  · rw [hA]
    exact hget
  · rw [hm₁]
    rfl

/-- The first instruction of the loop that is closed has only pending predecessors. -/
theorem first_closed {p : InstrId} {memo₁ : Memo} {m₁ : Merge} (hfit : s.Fit memo)
    (h₁ : s.Scan (memo.put p .pending) (s.flow.preds p) {} memo₁ m₁) (hnone : memo.find? p = none)
    (hfirst : (memo.find? u).isSome = true → (memo.find? g).isSome = true)
    (hu : Untold memo₁ R) (hp : R p) : m₁.assigned = none := by
  have hfit₁ := hfit.put p .pending
  have hlt : ∀ q ∈ s.flow.preds p, q < s.flow.size := fun q hq => hfit.lt_size hq
  have hne : p ≠ g := by
    rintro rfl
    -- the end of the loop has been found, and by now it could only be pending from before
    obtain ⟨state, hstate⟩ := Option.isSome_iff_exists.mp
      (h₁.isSome_of_mem hfit₁ hlt L.feeds.1 L.feeds.2)
    obtain rfl := hu u state L.last hstate
    have hpending := h₁.pending hstate
    rw [Memo.find?_put_ne L.ne] at hpending
    have := hfirst (by rw [hpending]; rfl)
    rw [hnone] at this
    cases this
  rw [h₁.eq_of_untold hfit₁ hlt (fun q hq he => L.inner hp hne ⟨hq, he⟩) hu]

/-- The end of the loop is found only from its start. -/
theorem start_found {p v : InstrId} (hp : p ∈ s.flow.preds v) (hv : (memo.find? v).isSome = true)
    (hfirst : (memo.find? u).isSome = true → (memo.find? g).isSome = true)
    (h : ((memo.put p .pending).find? u).isSome = true) :
    ((memo.put p .pending).find? g).isSome = true := by
  by_cases hup : u = p
  · obtain rfl := L.only (hup ▸ hp)
    exact Memo.isSome_find?_put hv _
  · rw [Memo.find?_put_ne hup] at h
    exact Memo.isSome_find?_put (hfirst h) _

theorem scan_start (h : s.Scan memo rest m memo' m') {v : InstrId} (hfit : s.Fit memo)
    (hrest : ∀ p ∈ rest, p ∈ s.flow.preds v) (hv : (memo.find? v).isSome = true)
    (hfirst : (memo.find? u).isSome = true → (memo.find? g).isSome = true) :
    (memo'.find? u).isSome = true → (memo'.find? g).isSome = true := by
  induction h generalizing v with
  | done => exact hfirst
  | pass _ _ ih =>
      rw [List.forall_mem_cons] at hrest
      exact ih hfit hrest.2 hv hfirst
  | found _ _ _ ih =>
      rw [List.forall_mem_cons] at hrest
      exact ih hfit hrest.2 hv hfirst
  | @opened memo memo₁ memo' p rest m m₁ m' _ _ h₁ _ ih₁ ih₂ =>
      rw [List.forall_mem_cons] at hrest
      have hself : ((memo.put p .pending).find? p).isSome = true := by
        rw [Memo.find?_put_self (hfit.size_eq ▸ hfit.lt_size hrest.1)]
        rfl
      have hfit₁ := hfit.put p .pending
      have hfirst₁ := ih₁ hfit₁ (fun q hq => hq) hself (L.start_found hrest.1 hv hfirst)
      refine ih₂ ((hfit₁.scan h₁).put p _) hrest.2
        (Memo.isSome_find?_put (h₁.isSome_find? (Memo.isSome_find?_put hv _)) _) fun h => ?_
      refine Memo.isSome_find?_put (hfirst₁ ?_) _
      by_cases hup : u = p
      · exact hup ▸ h₁.isSome_find? hself
      · rwa [Memo.find?_put_ne hup] at h

/-- A scan that closes an instruction of the loop brings in that the field is not assigned. -/
theorem scan (h : s.Scan memo rest m memo' m') {v : InstrId} (hfit : s.Fit memo)
    (hrest : ∀ p ∈ rest, p ∈ s.flow.preds v) (hv : (memo.find? v).isSome = true)
    (hfirst : (memo.find? u).isSome = true → (memo.find? g).isSome = true) (hu : Untold memo R) :
    Untold memo' R ∨ m'.Lacks fld ∧ s.flow.Reaches g v := by
  induction h generalizing v with
  | done => exact .inl hu
  | pass _ _ ih =>
      rw [List.forall_mem_cons] at hrest
      exact ih hfit hrest.2 hv hfirst hu
  | found _ _ _ ih =>
      rw [List.forall_mem_cons] at hrest
      exact ih hfit hrest.2 hv hfirst hu
  | @opened memo memo₁ memo' p rest m m₁ m' he hp h₁ h₂ ih₁ ih₂ =>
      have hstart : s.Scan memo [p] m (memo₁.put p (s.close p m₁))
          (m.join s.tree (s.close p m₁)) := .opened he hp h₁ (.done _ _)
      rw [List.forall_mem_cons] at hrest
      have hone : ∀ q ∈ [p], q ∈ s.flow.preds v := by simpa using hrest.1
      have hfit₁ := hfit.put p .pending
      have hself : ((memo.put p .pending).find? p).isSome = true := by
        rw [Memo.find?_put_self (hfit.size_eq ▸ hfit.lt_size hrest.1)]
        rfl
      have hcases := ih₁ hfit₁ (fun q hq => hq) hself (L.start_found hrest.1 hv hfirst)
        (hu.put_pending p)
      -- either nothing of the loop is closed yet, or this brings in that the field is missing
      by_cases hquiet : Untold memo₁ R ∧ ¬ R p
      · refine ih₂ (hfit.scan hstart) hrest.2 (hstart.isSome_find? hv)
          (L.scan_start hstart hfit hone hv hfirst) fun x state hx hfind => ?_
        rw [Memo.find?_put_ne fun hxp => hquiet.2 (by rw [← hxp]; exact hx)] at hfind
        exact hquiet.1 x state hx hfind
      · have hlost : s.flow.Reaches g p ∧ (m₁.Lacks fld ∨ m₁.assigned = none) := by
          rcases hcases with hu₁ | ⟨hm₁, hreach⟩
          · have hR : R p := by
              by_contra hR
              exact hquiet ⟨hu₁, hR⟩
            exact ⟨L.reached hR he, .inr (L.first_closed hfit h₁ hp hfirst hu₁ hR)⟩
          · exact ⟨hreach, .inl hm₁⟩
        obtain ⟨q, hq⟩ := hlost.1
        have hjoin := Merge.lacks_join s.tree m (s.close_eq_known p m₁)
          (L.get?_close_eq_none hlost.1 hlost.2)
        exact .inr ⟨h₂.lacks hjoin, _, hq.append (.step (L.linked.mem_iff.mpr hrest.1) (.stop v))⟩

/-- A field is not assigned at the sink when the walk from there gets to such a loop. -/
theorem not_assigns_atSink (hlt : s.flow.sink < s.flow.size) (hsink : ¬ R s.flow.sink)
    (hfound : Relation.ReflTransGen s.flow.Feeds s.flow.sink g) : s.atSink.assigns fld = false := by
  have hfit := fit_empty L.linked
  obtain ⟨memo', m', h, hsolve⟩ := exists_scan_start hfit s.flow.sink
  have hne : g ≠ s.flow.sink := fun hg => hsink (hg ▸ L.start)
  -- the walk gets to the loop
  obtain ⟨state, hstate⟩ := Option.isSome_iff_exists.mp (h.isSome_of_behind hfit hfound hne)
  have hlast : ((Memo.start s.flow s.flow.sink).find? u).isSome = true →
      ((Memo.start s.flow s.flow.sink).find? g).isSome = true := by
    intro hu
    obtain ⟨state, hstate⟩ := Option.isSome_iff_exists.mp hu
    exact absurd ((Memo.of_find?_start hstate).1 ▸ L.last) hsink
  have huntold : Untold (Memo.start s.flow s.flow.sink) R :=
    fun x state _ hx => (Memo.of_find?_start hx).2
  rcases L.scan h (hfit.put _ _) (fun p hp => hp) (by rw [Memo.find?_start_self hlt]; rfl) hlast
    huntold with hu | ⟨hm, hreach⟩
  · obtain rfl := hu g state L.start hstate
    exact absurd (Memo.of_find?_start (h.pending hstate)).1 hne
  · rw [atSink, hsolve, State.assigns, L.get?_close_eq_none hreach (.inl hm)]
    rfl

end Stalls

end Solver

end ComponentAudit
