import ComponentAudit.Proofs.Assign.Cycles
import ComponentAudit.Proofs.Assign.Structured
import ComponentAudit.Proofs.Flow.Passing

set_option autoImplicit false

/-! # When an assignment on every path is reported

Nothing takes an assignment back, so a field that every path to the normal exit assigns should be
assigned at the sink. Whether it is depends on the loops. It is when every path from the start of a
loop to the exit passes the end of the loop, as it does when the body is empty
(`Solver.assigns_of_funnels`). The field is lost at a loop whose body comes back to the start,
unless it is assigned again later (`Solver.not_assigns_of_closes`).

Main statement: `Construction.first_assignment_reported`.
-/

namespace ComponentAudit

/-! ## Structured code -/

namespace Code

variable {c : Code} {owner : NodeId} {u v : InstrId}

/-- A path to the sink that does not fail comes by the normal exit. -/
theorem path_exit_of_sink {p : List InstrId} (hp : (c.flow owner).Path v p c.sinkId)
    (hne : v ≠ c.sinkId) (hfail : failureId ∉ p) :
    ∃ q, (c.flow owner).Path v q exitId ∧ q ⊆ p := by
  have h1 : exitId = 1 := rfl
  have h2 : failureId = 2 := rfl
  have hs : c.sinkId = 3 + c.size := rfl
  rcases hp.lastEdge with ⟨rfl, -⟩ | ⟨q, j, hq, hj, rfl⟩
  · exact absurd rfl hne
  · rcases mem_flowEdges.mp ((c.mem_succs_flow owner).mp hj) with h | ⟨-, h⟩ | ⟨rfl, -⟩ | ⟨rfl, -⟩
    · have := edges_target_outside h
      lia
    · lia
    · exact ⟨q, hq, List.subset_append_left _ _⟩
    · exact absurd (List.mem_append_left _ hq.last_mem) hfail

theorem failure_not_mem_of_eligible {p : List InstrId}
    (h : ∀ j ∈ p, j = c.sinkId ∨ (c.flow owner).eligible j = true) : failureId ∉ p := by
  intro hmem
  rcases h _ hmem with hsink | heligible
  · exact c.sinkId_ne_failureId hsink.symm
  · rw [eligible_failure] at heligible
    cases heligible

/-- Nothing follows the sink, so an edge that closes a loop neither comes from it nor leads
to it. -/
theorem ne_sink_of_closes (h : (c.flow owner).Closes u v) : u ≠ c.sinkId ∧ v ≠ c.sinkId := by
  have hu : u ≠ c.sinkId := by
    rintro rfl
    have hedge := h.edge
    rw [succs_sink] at hedge
    cases hedge
  refine ⟨hu, ?_⟩
  rintro rfl
  obtain ⟨q, hq⟩ := h.live
  exact hu (eq_sinkId_of_reaches (hq.reaches_of_mem (h.passed q hq)))

/-- What leads to the normal exit is met on the way back from the sink. -/
theorem feeds_of_path (hplain : ∀ e, .step (.exit true) e ∉ c.parts) {p : List InstrId}
    (hp : (c.flow owner).Path u p exitId) (hu : (c.flow owner).Reaches entryId u) :
    Relation.TransGen (c.flow owner).Feeds c.sinkId u := by
  have hfail := failure_not_mem hp
  generalize he : exitId = e at hp
  induction hp with
  | stop i =>
      subst he
      exact .single (feeds_sink hplain hu)
  | @step i j k p hj hp ih =>
      rw [List.mem_cons, not_or] at hfail
      obtain ⟨q, hq⟩ := hu
      have hi := feeds_of_succs hplain ⟨q, hq⟩ (Ne.symm hfail.1) hj
      exact (ih ⟨_, hq.append (.step hj (.stop j))⟩ hfail.2 he).tail hi

end Code

namespace Solver

/-- Whether control gets to an instruction and has then written a field, if it did not fail. -/
structure Behind (s : Solver) (fld : Field) (v : InstrId) : Prop where
  ne_failure : v ≠ failureId
  live : s.flow.Reaches entryId v
  written : ∀ p, s.flow.Path entryId p v → failureId ∉ p →
    ∃ j ∈ p, (s.writeOf? fld j).isSome = true

variable {s : Solver} {fld : Field}

theorem Behind.ne_entry {v : InstrId} (h : s.Behind fld v) (hw : s.writeOf? fld v = none) :
    v ≠ entryId := by
  rintro rfl
  obtain ⟨j, hj, hwrite⟩ := h.written [entryId] (.stop _) (by decide)
  rw [List.mem_singleton.mp hj, hw] at hwrite
  cases hwrite

theorem Behind.pred {u v : InstrId} (h : s.Behind fld v) (hw : s.writeOf? fld v = none)
    (hv : v ∈ s.flow.succs u) (hu : s.flow.Reaches entryId u) (hne : u ≠ failureId) :
    s.Behind fld u := by
  refine ⟨hne, hu, fun p hp hfail => ?_⟩
  obtain ⟨j, hj, hwrite⟩ := h.written _ (hp.append (.step hv (.stop v)))
    (by simp [hfail, Ne.symm h.ne_failure])
  rcases List.mem_append.mp hj with hj | hj
  · exact ⟨j, hj, hwrite⟩
  · rw [List.mem_singleton.mp hj, hw] at hwrite
    cases hwrite

variable {c : Code} {owner : NodeId} (hflow : s.flow = c.flow owner)
  (hplain : ∀ e, .step (.exit true) e ∉ c.parts)

include hflow hplain

theorem funnels_behind (hexit : (c.flow owner).Reaches entryId exitId)
    (hfunnel : ∀ u g, (c.flow owner).Closes u g → ∀ p, (c.flow owner).Path g p exitId → u ∈ p) :
    s.Funnels fld c.level (s.Behind fld) where
  linked := hflow ▸ c.linked_flow owner
  edge {u v} hf := by
    rw [hflow] at hf ⊢
    obtain ⟨hu, -⟩ := Code.live_of_feeds hf
    refine (Code.level_lt_or_closes ((c.mem_preds_flow owner).mp hf.1) hu).imp_right ?_
    intro hcloses p hp hfound
    rw [Code.sink_flow] at hp hfound
    obtain ⟨q, hq, hsub⟩ := Code.path_exit_of_sink hp (Code.ne_sink_of_closes hcloses).2
      (Code.failure_not_mem_of_eligible hfound)
    exact hsub (hfunnel u v hcloses q hq)
  behind_step {u v} hv hw hf := by
    rw [hflow] at hf
    obtain ⟨hu, hne⟩ := Code.live_of_feeds hf
    have hedge := (c.linked_flow owner).mem_iff.mpr hf.1
    rw [← hflow] at hu hedge
    exact hv.pred hw hedge hu hne
  fed {v} hv hw := by
    have hlive := hv.live
    rw [hflow] at hlive ⊢
    obtain ⟨u, hu, hlive, hgoes⟩ := Flow.exists_not_closes hlive (hv.ne_entry hw)
    by_cases hfail : u = failureId
    · -- of the predecessors of the sink, the normal exit counts
      subst hfail
      obtain rfl := Code.succs_failure hu
      refine ⟨exitId, Code.feeds_sink hplain hexit, ?_⟩
      rw [Code.level_exit, Code.level_sink]
      exact Nat.lt_succ_self _
    · refine ⟨u, Code.feeds_of_succs hplain hlive hfail hu, ?_⟩
      exact (Code.level_lt_or_closes ((c.mem_succs_flow owner).mp hu) hlive).resolve_right hgoes

/-- **A field that every path to the normal exit writes is assigned at the end**, if there is such a
path and from the start of every loop it can be taken only through the end of the loop. -/
theorem assigns_of_funnels (hexit : (c.flow owner).Reaches entryId exitId)
    (hfunnel : ∀ u g, (c.flow owner).Closes u g → ∀ p, (c.flow owner).Path g p exitId → u ∈ p)
    (h : ∀ p, (c.flow owner).Path entryId p exitId → ∃ j ∈ p, (s.writeOf? fld j).isSome = true) :
    s.atSink.assigns fld = true := by
  have hsink : s.Behind fld c.sinkId := by
    obtain ⟨q, hq⟩ := hexit
    refine ⟨c.sinkId_ne_failureId, ?_, ?_⟩
    all_goals rw [hflow]
    · exact ⟨_, hq.append (.step (c.sink_mem_succs_exit owner) (.stop _))⟩
    · intro p hp hfail
      obtain ⟨r, hr, hsub⟩ := Code.path_exit_of_sink hp c.entryId_ne_sinkId hfail
      obtain ⟨j, hj, hwrite⟩ := h r hr
      exact ⟨j, hsub hj, hwrite⟩
  refine (funnels_behind hflow hplain hexit hfunnel).assigns_atSink ?_ ?_
  · rwa [hflow, Code.sink_flow]
  · rw [hflow, Code.sink_flow, Code.size_flow]
    exact Nat.lt_succ_self _

theorem stalls_inLoop {u g : InstrId} (hcloses : (c.flow owner).Closes u g)
    (honly : ∀ v ∈ (c.flow owner).succs u, v = g) (hexit : (c.flow owner).Reaches g exitId)
    (hsilent : ∀ j, (c.flow owner).Reaches g j → s.writeOf? fld j = none) :
    s.Stalls fld ((c.flow owner).InLoop u g) g u := by
  have hlinked := c.linked_flow owner
  have hsink := (Code.ne_sink_of_closes hcloses).2
  have hne : u ≠ g := by
    rintro rfl
    obtain ⟨p, hp⟩ := hexit
    obtain rfl : exitId = u := hp.mem_of_closed (S := (· = u)) (by
      rintro x rfl y hy
      exact honly y hy) rfl
    exact hsink (honly _ (c.sink_mem_succs_exit owner)).symm
  have hfail : u ≠ failureId := by
    rintro rfl
    exact hsink (Code.succs_failure hcloses.edge)
  refine
    { linked := hflow ▸ hlinked
      inner := ?_
      start := .inl rfl
      last := .inr ⟨[u], .stop u, by simpa using Ne.symm hne⟩
      ne := hne
      feeds := ?_
      only := ?_
      reached := ?_
      silent := ?_ }
  all_goals rw [hflow]
  · exact fun hx hxg hf => hx.pred hxg (hlinked.mem_iff.mpr hf.1)
  · exact Code.feeds_of_succs hplain hcloses.live hfail hcloses.edge
  · exact fun hv => honly _ (hlinked.mem_iff.mpr hv)
  · intro x hx he
    refine hcloses.reaches_of_inLoop hx ?_
    rcases hx with rfl | ⟨p, hp, -⟩
    · exact hcloses.live_target
    · cases hp with
      | stop => exact hcloses.live
      | step hj _ => exact (Code.live_of_feeds ⟨hlinked.mem_iff.mp hj, he⟩).1
  · exact fun hx => hsilent _ hx

/-- **A loop that comes back loses what was assigned before it.** The field is not assigned at the
end when the end of a loop leads nowhere but to the start, the normal exit can be reached from
there, and nothing that can be reached from there writes the field. -/
theorem not_assigns_of_closes {u g : InstrId} (hcloses : (c.flow owner).Closes u g)
    (honly : ∀ v ∈ (c.flow owner).succs u, v = g) (hexit : (c.flow owner).Reaches g exitId)
    (hsilent : ∀ j, (c.flow owner).Reaches g j → s.writeOf? fld j = none) :
    s.atSink.assigns fld = false := by
  obtain ⟨hu, hg⟩ := Code.ne_sink_of_closes hcloses
  refine (stalls_inLoop hflow hplain hcloses honly hexit hsilent).not_assigns_atSink ?_ ?_ ?_
  all_goals rw [hflow, Code.sink_flow]
  · rw [Code.size_flow]
    exact Nat.lt_succ_self _
  · rintro (h | ⟨p, hp, -⟩)
    · exact hg h.symm
    · exact hu (Code.eq_sinkId_of_reaches ⟨p, hp⟩)
  · obtain ⟨p, hp⟩ := hexit
    exact (Code.feeds_of_path hplain hp hcloses.live_target).to_reflTransGen

end Solver

/-! ## The first statement of a construction lambda -/

namespace Tree

/-- Whether a node is a literal or a name. -/
def IsAtom (t : Tree) (x : NodeId) : Prop :=
  (∃ text, t.kind x = .literal text) ∨ ∃ name, t.kind x = .reference name

variable {t : Tree}

theorem IsAtom.passes {x : NodeId} (h : t.IsAtom x) (u : Usage) : t.Passes u x [] := by
  rcases h with ⟨text, h⟩ | ⟨name, h⟩
  · exact passes_literal h u
  · exact passes_reference h u

/-- An assignment of a literal or a name to a member has a single run. -/
theorem passes_of_memberStore? {e place value : NodeId} {base name : String}
    (h : t.memberStore? e = some (base, name)) (ho : t.operands? e = some (place, value))
    (hvalue : t.IsAtom value) (u : Usage) : t.Passes u e [e] := by
  obtain ⟨hkind, place', value', r, selector, ho', hplace, hs, hr, -⟩ :=
    memberStore?_eq_some_iff.mp h
  obtain ⟨rfl, rfl⟩ := Prod.mk.inj (Option.some.inj (ho.symm.trans ho'))
  have hform : t.form u e = .store := by cases u <;> simp [form, hkind, ho]
  have hoperands : t.operandsOf u e = [r, value] := by
    cases u <;> simp [operandsOf, hkind, ho, placeOperands, hplace, hs]
  refine passes_of_store hform fun y hy => ?_
  rw [hoperands, List.mem_pair] at hy
  rcases hy with rfl | rfl
  · exact passes_reference (kind_of_referenceName? hr) _
  · exact hvalue.passes _

end Tree

namespace Solver

variable {s : Source} {lambda body : NodeId} {props : TypeExpr} {fields : List Field}

/-- An assignment to a field is found. -/
theorem isSome_writeOf? (h : s.PropsLambda lambda body props) (ht : s.tree.WellFormed)
    (hnodup : (fields.filterMap (·.name)).Nodup) {f : Field} (hf : f ∈ fields) {e : NodeId}
    (he : s.tree.AssignsField s.framework.attrsMember f e) {j : InstrId}
    (hj : e ∈ ((s.bodyCode body).flow lambda).stored j) :
    ((ofLambda s lambda body props fields).writeOf? f j).isSome = true := by
  obtain ⟨name, hname, hstore⟩ := he
  obtain ⟨place, target, receiver, hop, helem⟩ := Flow.write_of_stored hj
  have hmatch := h.builderMatcher_eq ht fields hop helem hstore
  rw [Write.byName, Field.named?_eq_some hnodup hf hname] at hmatch
  simp [writeOf?, matcher_ofLambda, hmatch]

end Solver

namespace Construction

variable {s : Source} {call lambda body : NodeId} {c : Construction} {fields : List Field}

/-- **When a construction reports a field that its lambda assigns first.** For a component whose
fields have different names, and a lambda in which the name of the props is free, whose first
statement assigns a literal or a name to a field, and whose normal exit can be reached. The field is
reported if the end of each loop is passed on every way from the start of the loop to the exit, as
it is when the body is empty or never gets to its end. It is not reported if some loop has an end
that leads only back, the exit can be reached from its start, and no instruction that can be reached
from there is found to write the field. -/
theorem first_assignment_reported (ht : s.tree.WellFormed) (hknown : s.bodiesKnown = true)
    (hc : ofCall? s call = some c) (hfields : c.fields? s = some fields)
    (hnames : (fields.filterMap (·.name)).Nodup) (hlambda : c.lambda? s.tree = some lambda)
    (hbody : s.tree.lambdaBody? lambda = some body)
    (hattrs : s.lexical? lambda s.framework.attrsMember = none)
    {props : TypeExpr} (hprops : c.component.argument? s.tree .props = some props)
    {first : NodeId} {others : List NodeId} (hfirst : s.tree.significant body = first :: others)
    {f : Field} (hf : f ∈ fields)
    (hstore : s.tree.AssignsField s.framework.attrsMember f first)
    {place value : NodeId} (hoperands : s.tree.operands? first = some (place, value))
    (hvalue : s.tree.IsAtom value)
    (hexit : ((s.bodyCode body).flow lambda).Reaches entryId exitId) :
    ∃ state, c.state? s = some state ∧
      ((∀ u g, ((s.bodyCode body).flow lambda).Closes u g →
          ∀ p, ((s.bodyCode body).flow lambda).Path g p exitId → u ∈ p) →
        state.assigns f = true) ∧
      ∀ u g, ((s.bodyCode body).flow lambda).Closes u g →
        (∀ v ∈ ((s.bodyCode body).flow lambda).succs u, v = g) →
        ((s.bodyCode body).flow lambda).Reaches g exitId →
        (∀ j, ((s.bodyCode body).flow lambda).Reaches g j →
          (Solver.ofLambda s lambda body props fields).writeOf? f j = none) →
        state.assigns f = false := by
  have h : s.PropsLambda lambda body props :=
    ⟨hbody, lambdaReceiver?_eq ht hc hlambda hprops, hattrs⟩
  have hplain := Source.not_exit_bodyCode hbody true
  have hflow := Solver.flow_ofLambda s lambda body props fields
  refine ⟨_, state?_eq hknown hfields hlambda hbody hprops, fun hfunnel => ?_,
    fun u g hcloses honly hg hsilent => ?_⟩
  · refine Solver.assigns_of_funnels hflow hplain hexit hfunnel fun p hp => ?_
    -- every run begins with the assignment
    have hfinishes := (Source.exists_path_iff_finishes hbody ht _).mp ⟨p, hp, rfl⟩
    have hlisting : s.tree.form .statement body = .listing := by
      simp [Tree.form, Source.kind_body hbody]
    obtain ⟨name, hname, hmember⟩ := hstore
    have hpasses := Tree.passes_of_memberStore? hmember hoperands hvalue .statement
    have hmem : first ∈ ((s.bodyCode body).flow lambda).writes p := by
      rcases hfinishes with hruns | hruns
      all_goals
        rw [Tree.runs_listing hlisting, hfirst] at hruns
        exact Tree.mem_of_runs_cons hpasses hruns (List.mem_singleton_self first)
    obtain ⟨j, hj, hstored⟩ := List.mem_flatMap.mp hmem
    exact ⟨j, hj, Solver.isSome_writeOf? h ht hnames hf ⟨name, hname, hmember⟩ hstored⟩
  · exact Solver.not_assigns_of_closes hflow hplain hcloses honly hg hsilent

/-- The statements `attrs.f = 1; while (c) { .. }`, with a given body. -/
def assignThenLoop (body : Draft (List NodeId)) : Draft (List NodeId) := do
  let first ← Source.assignF
  let c ← Draft.reference "c"
  let loop ← Draft.whileLoop c (← body)
  return [first, loop]

/-- A file with a construction of that lambda. -/
def loopSource (body : Draft (List NodeId)) : Source where
  tree := ((Source.constructionOf (pure []) (assignThenLoop body)).run (Tree.ofFile "F")).2
  framework := {}

/-- With an empty body the field is reported: the only edge that closes a loop comes from the
condition, and no path gets past that. -/
theorem first_assignment_reported_emptyLoop :
    let s := loopSource (pure [])
    let c : Construction := { component := { decl := 5, base := 4 }, call := 18 }
    s.tree.WellFormed ∧ ofCall? s 18 = some c ∧ ((s.bodyCode 15).flow 16).Closes 7 6 ∧
      ∃ state, c.state? s = some state ∧ state.assigns (s.tree.fieldAt 1) = true := by
  intro s c
  let flow := (s.bodyCode 15).flow 16
  have hfacts : s.tree.WellFormed ∧ ofCall? s 18 = some c ∧
      c.fields? s = some [s.tree.fieldAt 1] ∧ c.lambda? s.tree = some 16 ∧
      s.tree.lambdaBody? 16 = some 15 ∧ s.lexical? 16 "attrs" = none ∧
      c.component.argument? s.tree .props = some (.simple "CProps") ∧
      s.tree.significant 15 = [11, 14] ∧ s.tree.name? 1 = some "f" ∧
      s.tree.memberStore? 11 = some ("attrs", "f") ∧ s.tree.operands? 11 = some (9, 10) ∧
      s.tree.kind 10 = .literal "1" := by decide +kernel
  obtain ⟨ht, hc, hfields, hlambda, hbody, hattrs, hprops, hfirst, hname, hstore, hoperands,
    hvalue⟩ := hfacts
  -- what can be reached, in an order in which only one edge goes back
  let all : List InstrId := [0, 3, 4, 5, 6, 7, 8, 1, 9]
  have hgraph : (∀ x ∈ all, ∀ y ∈ flow.succs x, y ∈ all) ∧
      (∀ u ∈ all, ∀ g ∈ flow.succs u, u = 7 ∧ g = 6 ∨
        flow.Path 0 (all.takeWhile (· ≠ u) ++ [u]) u ∧ g ∉ all.takeWhile (· ≠ u) ++ [u]) ∧
      flow.succs 6 = [7] ∧ flow.preds 7 = [6] ∧ 6 ∈ flow.succs 7 ∧
      flow.Path 0 [0, 3, 4, 5, 6, 7] 7 ∧ flow.Path 0 [0, 3, 4, 5, 6, 7, 8, 1] 1 := by
    decide +kernel
  obtain ⟨hclosed, hedges, hsuccs, hpreds, hback, htested, hexit⟩ := hgraph
  have hcloses : flow.Closes 7 6 := by
    refine ⟨hback, ⟨_, htested⟩, fun p hp => ?_⟩
    rcases hp.lastEdge with ⟨h, -⟩ | ⟨q, j, hq, hj, rfl⟩
    · cases h
    · have hj := ((s.bodyCode 15).linked_flow 16).mem_iff.mp hj
      rw [hpreds, List.mem_singleton] at hj
      exact List.mem_append_left _ (hj ▸ hq.last_mem)
  have hfunnel : ∀ u g, flow.Closes u g → ∀ p, flow.Path g p exitId → u ∈ p := by
    intro u g h p hp
    obtain ⟨q, hq⟩ := h.live
    have hu : u ∈ all := hq.mem_of_closed (S := (· ∈ all)) hclosed (by decide)
    rcases hedges u hu g h.edge with ⟨rfl, rfl⟩ | ⟨hpath, hne⟩
    · cases hp with
      | step hj hp =>
          rw [hsuccs, List.mem_singleton] at hj
          obtain ⟨q, rfl⟩ := hp.exists_eq_cons
          simp [hj]
    · exact absurd (h.passed _ hpath) hne
  obtain ⟨state, hstate, hreported, -⟩ := first_assignment_reported ht rfl hc hfields
    (by rw [List.filterMap_cons, show (s.tree.fieldAt 1).name = some "f" from hname]; simp) hlambda
    hbody hattrs hprops hfirst (List.mem_singleton_self _) ⟨"f", hname, hstore⟩ hoperands
    (.inl ⟨"1", hvalue⟩) ⟨_, hexit⟩
  exact ⟨ht, hc, hcloses, state, hstate, hreported hfunnel⟩

/-- **An assignment in front of a loop is lost.** The lambda assigns the field before anything else,
and the state does not have it. -/
theorem first_assignment_lost :
    let s := loopSource do return [← Draft.reference "x"]
    let c : Construction := { component := { decl := 5, base := 4 }, call := 19 }
    s.tree.WellFormed ∧ ofCall? s 19 = some c ∧ c.fields? s = some [s.tree.fieldAt 1] ∧
      c.lambda? s.tree = some 17 ∧ s.tree.lambdaBody? 17 = some 16 ∧
      s.lexical? 17 "attrs" = none ∧ s.tree.significant 16 = [11, 15] ∧
      s.tree.name? 1 = some "f" ∧ s.tree.memberStore? 11 = some ("attrs", "f") ∧
      ((s.bodyCode 16).flow 17).Path entryId [0, 3, 4, 5, 6, 7, 8, 1] exitId ∧
      (c.state? s).map (·.assigned) = some [] := by decide +kernel

end Construction

end ComponentAudit
