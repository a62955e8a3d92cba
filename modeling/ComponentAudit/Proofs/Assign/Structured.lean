import ComponentAudit.Proofs.Assign.Exact
import ComponentAudit.Proofs.Assign.Lambda
import ComponentAudit.Proofs.Assign.Trace

set_option autoImplicit false

/-! # Reported fields and runs of a construction lambda

What the analysis of a construction reports, compared with what the lambda does when it is run.
The lambdas are those whose assignments are all to fields of the props, `attrs.field = value`, with
conditionals, loops and ways to leave at any depth.

The pattern finds every such assignment, because the graph notes where the props are read
(`Source.PropsLambda.builderMatcher_eq`). What the state assigns is assigned along every path to
the normal exit (`Solver.assigns_sound`); without loops a chain of predecessors from the sink is a
path from the entry read backwards (`Code.path_of_chain`), so that the converse holds as well
(`Solver.assigns_complete`).

Main statement: `Construction.reported_iff_assigned`.
-/

namespace ComponentAudit

/-! ## Chains and paths -/

/-- What stores is a write. -/
theorem Flow.write_of_stored {f : Flow} {j : InstrId} {e : NodeId} (h : e ∈ f.stored j) :
    ∃ place target receiver, (f.instr j).op = .write place target receiver ∧
      (f.instr j).element = some e := by
  unfold stored at h
  split at h
  · next x hx =>
    unfold Op.stores at h
    split at h
    · next place target receiver hop =>
      exact ⟨place, target, receiver, hop, by rw [hx, List.mem_singleton.mp h]⟩
    · cases h
  · cases h

namespace Code

variable {c : Code} {owner : NodeId}

theorem succs_failure {b : InstrId} (h : b ∈ (c.flow owner).succs failureId) : b = c.sinkId := by
  have h0 : entryId = 0 := rfl
  have h1 : exitId = 1 := rfl
  have h2 : failureId = 2 := rfl
  rw [mem_succs_flow] at h
  have hsource (h : some entryId = some failureId ∨ 3 ≤ failureId ∧ failureId < 3 + c.size) :
      False := by
    rcases h with h | h
    · cases h
    · lia
  rcases mem_flowEdges.mp h with h | ⟨h, -⟩ | ⟨h, -⟩ | ⟨-, h⟩
  · exact (hsource (edges_source h)).elim
  · exact (hsource (out_cases h)).elim
  · cases h
  · exact h

theorem stored_sink (c : Code) (owner : NodeId) : (c.flow owner).stored c.sinkId = [] := by
  have hlabel : (c.flow owner).labels[c.sinkId]? = some (.sink, none) := by
    have hlen : c.sinkId = ([(Op.enter, some owner), (Op.exit false, some owner),
        (Op.exit true, some owner)] ++ c.nodes.map fun n => (n.1, some n.2)).length := by
      simp [sinkId, size]
      lia
    rw [labels_flow, flowLabels, hlen]
    exact List.getElem?_concat_length ..
  obtain ⟨-, he⟩ := Flow.instr_of_label hlabel
  simp [Flow.stored, he]

theorem sinkId_ne_failureId (c : Code) : c.sinkId ≠ failureId := by
  unfold sinkId failureId
  lia

theorem entryId_ne_sinkId (c : Code) : entryId ≠ c.sinkId := by
  unfold sinkId entryId
  lia

theorem sink_mem_succs_exit (c : Code) (owner : NodeId) :
    c.sinkId ∈ (c.flow owner).succs exitId :=
  (c.mem_succs_flow owner).mpr (by simp [flowEdges])

theorem succs_sink (c : Code) (owner : NodeId) : (c.flow owner).succs c.sinkId = [] := by
  refine List.eq_nil_iff_forall_not_mem.mpr fun v hv => ?_
  exact Nat.lt_irrefl _ (flowEdges_lt ((c.mem_succs_flow owner).mp hv)).1

theorem eq_sinkId_of_reaches {v : InstrId} (h : (c.flow owner).Reaches c.sinkId v) :
    v = c.sinkId := by
  obtain ⟨p, hp⟩ := h
  cases hp with
  | stop => rfl
  | step hj =>
      rw [succs_sink] at hj
      cases hj

/-- A path to the normal exit does not come by the other one. -/
theorem failure_not_mem {i : InstrId} {p : List InstrId} (hp : (c.flow owner).Path i p exitId) :
    failureId ∉ p := by
  have h1 : exitId = 1 := rfl
  have hs : c.sinkId = 3 + c.size := rfl
  generalize he : exitId = e at hp
  induction hp with
  | stop i =>
      rw [List.mem_singleton, ← he]
      decide
  | @step i j k p h hp ih =>
      intro hmem
      rcases List.mem_cons.mp hmem with rfl | hmem
      · obtain rfl := succs_failure h
        have := eq_sinkId_of_reaches ⟨p, hp⟩
        lia
      · exact ih he hmem

/-- What counts at an instruction can be reached, and is not the exit for failure. -/
theorem live_of_feeds {u v : InstrId} (h : (c.flow owner).Feeds v u) :
    (c.flow owner).Reaches entryId u ∧ u ≠ failureId := by
  have hlt := (flowEdges_lt ((c.mem_preds_flow owner).mp h.1)).1
  have heligible := h.2
  constructor
  · by_contra hno
    have hdead := (c.dead_flow_iff owner (Nat.le_of_lt hlt)).mpr hno
    simp [Flow.eligible, hdead] at heligible
  · rintro rfl
    rw [eligible_failure] at heligible
    cases heligible

/-- Of the two exits only the normal one counts at the sink. -/
theorem eq_exitId_of_feeds {q : InstrId} (h : (c.flow owner).Feeds c.sinkId q) : q = exitId := by
  have h1 : exitId = 1 := rfl
  have h2 : failureId = 2 := rfl
  have hs : c.sinkId = 3 + c.size := rfl
  rcases mem_flowEdges.mp ((c.mem_preds_flow owner).mp h.1) with h' | ⟨-, h'⟩ | ⟨h', -⟩ | ⟨rfl, -⟩
  · rcases edges_target h' with h' | ⟨way, hway⟩
    · lia
    · cases way <;> simp [Leave.target?] at hway <;> lia
  · lia
  · exact h'
  · exact absurd rfl (live_of_feeds h).2

variable (hplain : ∀ e, .step (.exit true) e ∉ c.parts)

include hplain

theorem eligible_of_reaches {i : InstrId} (hi : (c.flow owner).Reaches entryId i)
    (hle : i ≤ c.sinkId) (hne : i ≠ failureId) : (c.flow owner).eligible i = true := by
  have hdead : ((c.flow owner).instr i).dead = false := by
    refine Bool.eq_false_iff.mpr fun h => ?_
    exact (c.dead_flow_iff owner hle).mp h hi
  have hfail : ((c.flow owner).instr i).isFailure = false :=
    Bool.eq_false_iff.mpr fun h => hne (eq_failureId hplain h)
  simp [Flow.eligible, hdead, hfail]

theorem feeds_of_succs {u v : InstrId} (hu : (c.flow owner).Reaches entryId u) (hne : u ≠ failureId)
    (hv : v ∈ (c.flow owner).succs u) : (c.flow owner).Feeds v u :=
  ⟨(c.linked_flow owner).mem_iff.mp hv, eligible_of_reaches hplain hu
    (Nat.le_of_lt (flowEdges_lt ((c.mem_succs_flow owner).mp hv)).1) hne⟩

theorem feeds_sink (hexit : (c.flow owner).Reaches entryId exitId) :
    (c.flow owner).Feeds c.sinkId exitId :=
  feeds_of_succs hplain hexit (by decide) (c.sink_mem_succs_exit owner)

/-- When the normal exit can be reached, what can be reached has an eligible predecessor, the entry
apart. -/
theorem exists_feeds {i : InstrId} (hexit : (c.flow owner).Reaches entryId exitId)
    (hi : (c.flow owner).Reaches entryId i) (hne : i ≠ entryId) :
    ∃ p, (c.flow owner).Feeds i p := by
  obtain ⟨p, hp⟩ := hi
  rcases hp.lastEdge with ⟨h, -⟩ | ⟨q, j, hq, hj, -⟩
  · exact absurd h hne
  · by_cases hfail : j = failureId
    · subst hfail
      obtain rfl := succs_failure hj
      exact ⟨exitId, feeds_sink hplain hexit⟩
    · exact ⟨j, feeds_of_succs hplain ⟨q, hq⟩ hfail hj⟩

/-- **A chain of predecessors is a path from the entry**, read backwards. -/
theorem path_of_chain {i : InstrId} {ch : List InstrId} (h : (c.flow owner).Chain i ch)
    (hexit : (c.flow owner).Reaches entryId exitId) (hi : (c.flow owner).Reaches entryId i) :
    (c.flow owner).Path entryId ch.reverse i := by
  have hlinked := c.linked_flow owner
  induction h with
  | @last i hlast =>
      by_cases hne : i = entryId
      · subst hne
        exact .stop _
      · obtain ⟨p, hp⟩ := exists_feeds hplain hexit hi hne
        exact absurd hp (hlast p)
  | @more i p ch hp _ ih =>
      rw [List.reverse_cons]
      exact (ih (live_of_feeds hp).1).append (.step (hlinked.mem_iff.mpr hp.1) (.stop i))

/-- The chains from the sink are the paths to the normal exit, read backwards. -/
theorem exists_path_of_chain {ch : List InstrId} (hexit : (c.flow owner).Reaches entryId exitId)
    (hch : (c.flow owner).Chain c.sinkId ch) :
    ∃ p, (c.flow owner).Path entryId p exitId ∧ ch = c.sinkId :: p.reverse := by
  cases hch with
  | last hlast => exact absurd (feeds_sink hplain hexit) (hlast exitId)
  | @more _ q ch hq hch =>
      obtain rfl := eq_exitId_of_feeds hq
      exact ⟨ch.reverse, path_of_chain hplain hch hexit hexit, by rw [List.reverse_reverse]⟩

end Code

namespace Solver

/-- The graph of code without loops has no cycle. -/
theorem not_cycle_of_forward {c : Code} (hloop : ∀ e a b, .loop e a b ∉ c.parts)
    (owner : NodeId) (i : InstrId) : ¬ Relation.TransGen (c.flow owner).Feeds i i := by
  have hlt {a b : InstrId} (h : Relation.TransGen (c.flow owner).Feeds a b) :
      c.rank b < c.rank a := by
    have one {a b : InstrId} (h : (c.flow owner).Feeds a b) : c.rank b < c.rank a :=
      Code.rank_lt hloop ((c.mem_preds_flow owner).mp h.1)
    induction h with
    | single h => exact one h
    | tail _ h ih => exact Nat.lt_trans (one h) ih
  exact fun h => Nat.lt_irrefl _ (hlt h)

/-- **Without loops, a field that every path to the normal exit writes is assigned at the end**, if
there is such a path. -/
theorem assigns_of_paths {s : Solver} {c : Code} {owner : NodeId} (hflow : s.flow = c.flow owner)
    (ht : s.tree.WellFormed) (hplain : ∀ e, .step (.exit true) e ∉ c.parts)
    (hloop : ∀ e a b, .loop e a b ∉ c.parts)
    (hexit : (c.flow owner).Reaches entryId exitId) {fld : Field}
    (h : ∀ p, (c.flow owner).Path entryId p exitId → ∃ j ∈ p, (s.writeOf? fld j).isSome = true) :
    s.atSink.assigns fld = true := by
  have hexact : s.Exact s.flow.sink s.atSink :=
    exact_atSink ht (hflow ▸ c.linked_flow owner) (hflow ▸ not_cycle_of_forward hloop owner)
  rw [hexact.assigns_iff, hflow, Code.sink_flow]
  intro ch hch
  rw [hflow] at hch
  obtain ⟨p, hp, rfl⟩ := Code.exists_path_of_chain hplain hexit hch
  obtain ⟨j, hj, hwrite⟩ := h p hp
  exact List.findSome?_isSome_iff.mpr
    ⟨j, List.mem_cons_of_mem _ (List.mem_reverse.mpr hj), hwrite⟩

end Solver

/-! ## The fields of a component -/

theorem Schema.exists_judge {i : Schema} {s : Source} {f : Field} (h : f ∈ i.fields s) :
    ∃ member, i.judge s member = .field f := by
  obtain ⟨v, hv, hf⟩ := List.mem_filterMap.mp h
  obtain ⟨member, -, rfl⟩ := List.mem_map.mp hv
  refine ⟨member, ?_⟩
  split at hf
  · next heq => rw [heq, Option.some.inj hf]
  · cases hf

/-- A member is the field that it declares, and its name is not kept from props. -/
theorem Schema.of_judge_eq_field {i : Schema} {s : Source} {member : NodeId} {f : Field}
    (h : i.judge s member = .field f) :
    f = s.tree.fieldAt member ∧
      (i.role = .props → f.name.any s.framework.isReserved = false) := by
  rcases i.judge_cases s member with hj | hj | ⟨decl, hkind, ⟨-, hj⟩ | ⟨name, hj⟩ | ⟨hfree, hj⟩⟩
  · cases hj.symm.trans h
  · cases hj.symm.trans h
  · cases hj.symm.trans h
  · cases hj.symm.trans h
  · cases hj.symm.trans h
    refine ⟨rfl, fun hrole => ?_⟩
    rw [← hfree hrole, Tree.fieldAt, Tree.name?, hkind]
    rfl

/-- A field is what its declaration says. -/
theorem Schema.eq_fieldAt {i : Schema} {s : Source} {f : Field} (h : f ∈ i.fields s) :
    f = s.tree.fieldAt f.decl := by
  obtain ⟨member, hfield⟩ := exists_judge h
  obtain ⟨rfl, -⟩ := of_judge_eq_field hfield
  rfl

/-- Among fields of different names the one of a name is found. -/
theorem Field.named?_eq_some {fields : List Field} (hnodup : (fields.filterMap (·.name)).Nodup)
    {f : Field} {name : String} (hf : f ∈ fields) (hname : f.name = some name) :
    Field.named? fields name = some f := by
  induction fields with
  | nil => cases hf
  | cons g fields ih =>
      rw [Field.named?, List.find?_cons]
      rcases List.mem_cons.mp hf with rfl | hf
      · simp [hname]
      · have hne : g.name ≠ some name := by
          intro hg
          have hmem : name ∈ fields.filterMap (·.name) := List.mem_filterMap.mpr ⟨f, hf, hname⟩
          rw [List.filterMap_cons, hg] at hnodup
          exact (List.nodup_cons.mp hnodup).1 hmem
        have hrest : (fields.filterMap (·.name)).Nodup := by
          rw [List.filterMap_cons] at hnodup
          split at hnodup
          · exact hnodup
          · exact (List.nodup_cons.mp hnodup).2
        rw [beq_eq_false_iff_ne.mpr hne]
        exact ih hrest hf

/-! ## Reported fields and assigned fields -/

namespace State

theorem assigns_of_mem {state : State} {x : Field × Assignment} (h : x ∈ state.assigned) :
    state.assigns x.1 = true := by
  rw [assigns, get?, Assigned.get?, Option.isSome_map, List.find?_isSome]
  exact ⟨x, h, beq_self_eq_true _⟩

theorem exists_of_assigns {state : State} {f : Field} (h : state.assigns f = true) :
    ∃ x ∈ state.assigned, x.1.decl = f.decl := by
  rw [assigns, get?, Assigned.get?, Option.isSome_map, List.find?_isSome] at h
  obtain ⟨x, hx, hdecl⟩ := h
  exact ⟨x, hx, beq_iff_eq.mp hdecl⟩

end State

namespace Tree

/-- Whether a block has a run that completes or returns and performs the given assignments. -/
def Finishes (t : Tree) (body : NodeId) (w : List NodeId) : Prop :=
  t.Runs (.one .statement body) w .completes ∨ t.Runs (.one .statement body) w (.leaves .returns)

/-- Whether a node assigns a field as the member of a name. -/
def AssignsField (t : Tree) (base : String) (f : Field) (e : NodeId) : Prop :=
  ∃ name, f.name = some name ∧ t.memberStore? e = some (base, name)

/-- Whether all assignments that a block involves are to members of a name that are among the given
fields. -/
def OnlyAssigns (t : Tree) (base : String) (fields : List Field) (body : NodeId) : Prop :=
  ∀ u e, t.Involves .statement body u e → t.form u e = .store →
    ∃ f ∈ fields, t.AssignsField base f e

/-- Whether no return is inside a loop of a block. -/
def ReturnsOutsideLoops (t : Tree) (body : NodeId) : Prop :=
  ∀ u x, t.Involves .statement body u x → t.form u x = .repetition →
    ∀ v y, t.Involves u x v y → t.form v y ≠ .leave .returns

/-- Whether a block has no loop. -/
def LoopFree (t : Tree) (body : NodeId) : Prop :=
  ∀ u x, t.Involves .statement body u x → t.form u x ≠ .repetition

end Tree

namespace Source

variable {s : Source} {lambda body : NodeId} (hb : s.tree.lambdaBody? lambda = some body)

include hb

/-- The runs of the body that finish are read along the paths to the normal exit. -/
theorem exists_path_iff_finishes (ht : s.tree.WellFormed) (w : List NodeId) :
    (∃ p, ((s.bodyCode body).flow lambda).Path entryId p exitId ∧
      ((s.bodyCode body).flow lambda).writes p = w) ↔ s.tree.Finishes body w := by
  have husage : s.bodyUsage body = .statement := by simp [bodyUsage, kind_body hb]
  have hruns := runs_bodyCode_iff ht (lt_size_of_bodyOf? ht (bodyOf?_lambda hb)) w
  rw [husage] at hruns
  rw [Flow.exists_path_iff_leads ((s.bodyCode body).stored_entry lambda),
    (s.bodyCode body).leads_exit_iff lambda w (.inl rfl), Outcome.exists_exit_iff, hruns, hruns]
  rfl

/-- The exits of the graph are not in the code of the body. -/
theorem not_exit_bodyCode (failed : Bool) (e : NodeId) :
    .step (.exit failed) e ∉ (s.bodyCode body).parts := by
  rw [bodyCode_eq hb]
  exact not_exit_codeWithin

/-- Without loops that the body involves there are none in its code. -/
theorem not_loop_bodyCode (h : s.tree.LoopFree body) (e : NodeId) (a b : Code) :
    .loop e a b ∉ (s.bodyCode body).parts := by
  intro hmem
  rw [bodyCode_eq hb] at hmem
  obtain ⟨v, x, hx, hform, -⟩ := involves_of_loop hmem
  exact h v x hx hform

/-- When all assignments of the body are to fields, what the pattern finds is a write to the field
that the assignment names. -/
theorem field_of_matcher {props : TypeExpr} {fields : List Field}
    (hnodup : (fields.filterMap (·.name)).Nodup) {base : String}
    (honly : s.tree.OnlyAssigns base fields body) {j : InstrId} {w : Write}
    (hw : s.builderMatcher ((s.bodyCode body).flow lambda) lambda props fields j = some w) :
    ∃ f ∈ fields, ∃ u e, s.tree.Involves .statement body u e ∧ s.tree.form u e = .store ∧
      (((s.bodyCode body).flow lambda).instr j).element = some e ∧
      ((s.bodyCode body).flow lambda).stored j = [e] ∧ s.tree.AssignsField base f e ∧
      w = .field f (s.assignmentOf (((s.bodyCode body).flow lambda).instr j)) := by
  obtain ⟨place, target, receiver, r, selector, i, name, hop, -, hs, -, -, hsel, rfl⟩ :=
    builderMatcher_cases hw
  obtain ⟨e, he, hpart⟩ := Code.step_of_write hop
  obtain ⟨v, hinvolves, hform, stored, ho⟩ := involves_of_write (bodyCode_eq hb ▸ hpart)
  obtain ⟨f, hf, name', hname, hstore⟩ := honly v e hinvolves hform
  -- the selector of the place is the name of the field
  obtain ⟨-, place', stored', r', selector', ho', -, hs', -, hsel'⟩ :=
    Tree.memberStore?_eq_some_iff.mp hstore
  obtain ⟨rfl, -⟩ : place = place' ∧ stored = stored' :=
    Prod.mk.inj (Option.some.inj (ho.symm.trans ho'))
  obtain ⟨-, rfl⟩ : r = r' ∧ selector = selector' :=
    Prod.mk.inj (Option.some.inj (hs.symm.trans hs'))
  obtain rfl : name = name' := Option.some.inj (hsel.symm.trans hsel')
  refine ⟨f, hf, v, e, hinvolves, hform, he, ?_, ⟨name, hname, hstore⟩, ?_⟩
  · simp [Flow.stored, he, hop, Op.stores]
  · rw [Write.byName, Field.named?_eq_some hnodup hf hname]

end Source

namespace Solver

/-- The solver for the props that a lambda assigns. -/
def ofLambda (s : Source) (lambda body : NodeId) (props : TypeExpr) (fields : List Field) :
    Solver where
  tree := s.tree
  flow := (s.bodyCode body).flow lambda
  matcher := s.builderMatcher ((s.bodyCode body).flow lambda) lambda props fields

section

variable (s : Source) (lambda body : NodeId) (props : TypeExpr) (fields : List Field)

theorem flow_ofLambda :
    (ofLambda s lambda body props fields).flow = (s.bodyCode body).flow lambda := by
  simp only [ofLambda]

theorem matcher_ofLambda : (ofLambda s lambda body props fields).matcher
    = s.builderMatcher ((s.bodyCode body).flow lambda) lambda props fields := by
  simp only [ofLambda]

theorem traced_ofLambda :
    (ofLambda s lambda body props fields).Traced
      (ofLambda s lambda body props fields).atSink.assigned
      (ofLambda s lambda body props fields).atSink.unknown := by
  refine traced_atSink (s := ofLambda s lambda body props fields) ?_
  rw [flow_ofLambda]
  exact (s.bodyCode body).linked_flow lambda

end

variable {s : Source} {lambda body : NodeId} {props : TypeExpr} {fields : List Field}

/-- **Without loops, what every run that finishes assigns, the state assigns**, when there is such
a run. -/
theorem assigns_complete (h : s.PropsLambda lambda body props) (ht : s.tree.WellFormed)
    (hnodup : (fields.filterMap (·.name)).Nodup) (hloop : s.tree.LoopFree body)
    (hrun : ∃ w, s.tree.Finishes body w) {f : Field} (hf : f ∈ fields)
    (hall : ∀ w, s.tree.Finishes body w →
      ∃ e ∈ w, s.tree.AssignsField s.framework.attrsMember f e) :
    (ofLambda s lambda body props fields).atSink.assigns f = true := by
  have hpath := Source.exists_path_iff_finishes h.body_eq ht
  have hexit : ((s.bodyCode body).flow lambda).Reaches entryId exitId := by
    obtain ⟨w, hw⟩ := hrun
    obtain ⟨p, hp, -⟩ := (hpath w).mpr hw
    exact ⟨p, hp⟩
  refine assigns_of_paths (flow_ofLambda s lambda body props fields) ht
    (Source.not_exit_bodyCode h.body_eq true) (Source.not_loop_bodyCode h.body_eq hloop) hexit ?_
  intro p hp
  obtain ⟨e, he, name, hname, hstore⟩ := hall _ ((hpath _).mp ⟨p, hp, rfl⟩)
  obtain ⟨j, hj, he⟩ := List.mem_flatMap.mp he
  obtain ⟨place, target, receiver, hop, helem⟩ := Flow.write_of_stored he
  refine ⟨j, hj, ?_⟩
  have hmatch := h.builderMatcher_eq ht fields hop helem hstore
  rw [Write.byName, Field.named?_eq_some hnodup hf hname] at hmatch
  simp [writeOf?, matcher_ofLambda, hmatch]

section

variable (hb : s.tree.lambdaBody? lambda = some body)
  (hnodup : (fields.filterMap (·.name)).Nodup)
  {base : String} (honly : s.tree.OnlyAssigns base fields body)

include hb hnodup honly

theorem unknown_atSink_eq_nil : (ofLambda s lambda body props fields).atSink.unknown = [] := by
  refine List.eq_nil_iff_forall_not_mem.mpr fun a ha => ?_
  obtain ⟨i, hi⟩ := (traced_ofLambda s lambda body props fields).unknown a ha
  rw [matcher_ofLambda] at hi
  obtain ⟨f, -, u, e, -, -, -, -, -, hw⟩ := Source.field_of_matcher hb hnodup honly hi
  cases hw

theorem mem_fields_of_assigned {x : Field × Assignment}
    (hx : x ∈ (ofLambda s lambda body props fields).atSink.assigned) : x.1 ∈ fields := by
  obtain ⟨i, a, hi⟩ := ((traced_ofLambda s lambda body props fields).entry x hx).field
  rw [matcher_ofLambda] at hi
  obtain ⟨f, hf, u, e, -, -, -, -, -, hw⟩ := Source.field_of_matcher hb hnodup honly hi
  cases hw
  exact hf

/-- **What the state assigns, every run that finishes assigns**, when no return is in a loop. -/
theorem assigns_sound (ht : s.tree.WellFormed) (hreturns : s.tree.ReturnsOutsideLoops body)
    (hdecl : ∀ f ∈ fields, ∀ g ∈ fields, f.decl = g.decl → f = g) {f : Field} (hf : f ∈ fields)
    (hassigns : (ofLambda s lambda body props fields).atSink.assigns f = true) {w : List NodeId}
    (hw : s.tree.Finishes body w) : ∃ e ∈ w, s.tree.AssignsField base f e := by
  obtain ⟨p, hp, rfl⟩ := (Source.exists_path_iff_finishes hb ht w).mpr hw
  have hplain := Source.not_exit_bodyCode hb true
  have hloops : (s.bodyCode body).LoopsHold := by
    rw [Source.bodyCode_eq hb]
    exact Source.loopsHold_codeWithin hreturns
  set code := s.bodyCode body
  -- the path goes on from the exit to the sink
  have hedge : code.sinkId ∈ (code.flow lambda).succs exitId :=
    (code.mem_succs_flow lambda).mpr (by simp [Code.flowEdges])
  have hpath : (code.flow lambda).Path (code.flow lambda).entry (p ++ [code.sinkId])
      (code.flow lambda).sink := by
    rw [Code.entry_flow, Code.sink_flow]
    exact hp.append (.step hedge (.stop _))
  have hfail : ∀ j ∈ p ++ [code.sinkId], ((code.flow lambda).instr j).isFailure = false := by
    intro j hj
    refine Bool.eq_false_iff.mpr fun hfail => ?_
    obtain rfl := Code.eq_failureId hplain hfail
    rcases List.mem_append.mp hj with hj | hj
    · exact Code.failure_not_mem hp hj
    · have hs : code.sinkId = 3 + code.size := rfl
      have h2 : failureId = 2 := rfl
      have := List.mem_singleton.mp hj
      lia
  rw [ofLambda] at hassigns
  obtain ⟨j, hj, g, a, hmatch, hgf⟩ := assigns_at_sink hloops.testsHold hassigns hpath hfail
    fun j _ => hloops.not_loopReturnAt 3 j
  obtain ⟨f', hf', u, e, -, -, -, hstored, hfield, heq⟩ :=
    Source.field_of_matcher hb hnodup honly hmatch
  cases heq
  obtain rfl := hdecl g hf' f hf hgf
  refine ⟨e, List.mem_flatMap.mpr ⟨j, ?_, by rw [hstored]; exact List.mem_singleton_self e⟩, hfield⟩
  refine (List.mem_append.mp hj).resolve_right fun hsink => ?_
  rw [List.mem_singleton.mp hsink, Code.stored_sink] at hstored
  cases hstored

end

end Solver

namespace Construction

variable {s : Source} {call lambda body : NodeId} {c : Construction} {fields : List Field}

/-- What a construction assigns is the state at the end of its lambda. -/
theorem state?_eq {props : TypeExpr} (hknown : s.bodiesKnown = true)
    (hfields : c.fields? s = some fields) (hlambda : c.lambda? s.tree = some lambda)
    (hbody : s.tree.lambdaBody? lambda = some body)
    (hprops : c.component.argument? s.tree .props = some props) :
    c.state? s = some (Solver.ofLambda s lambda body props fields).atSink := by
  have hflow : s.flow? lambda = some ((s.bodyCode body).flow lambda) :=
    (Source.flow?_eq_some_iff (Source.bodyOf?_lambda hbody)).mpr ⟨hknown, rfl⟩
  simp [state?, hfields, hlambda, hprops, hflow, Solver.ofLambda]

/-- A component with fields has a type for its props. -/
theorem exists_props (hfields : c.fields? s = some fields) :
    ∃ props, c.component.argument? s.tree .props = some props := by
  obtain ⟨schema, hschema, -⟩ := Option.map_eq_some_iff.mp hfields
  obtain ⟨props, hprops, -⟩ := Option.bind_eq_some_iff.mp hschema
  exact ⟨props, hprops⟩

/-- The fields of a construction are told apart by their declarations. -/
theorem eq_of_decl (hfields : c.fields? s = some fields) {f g : Field} (hf : f ∈ fields)
    (hg : g ∈ fields) (h : f.decl = g.decl) : f = g := by
  obtain ⟨schema, -, rfl⟩ := Option.map_eq_some_iff.mp hfields
  rw [Schema.eq_fieldAt hf, Schema.eq_fieldAt hg, h]

/-- **The fields that a construction reports and those that its lambda assigns.** For a component
whose fields have different names, and a lambda in which the name of the props is free, all
assignments are to fields and no return is in a loop: no write is unknown, every field reported is
assigned in every run that completes or returns, and without loops, when there is such a run, the
fields reported are those that all these runs assign. -/
theorem reported_iff_assigned (ht : s.tree.WellFormed) (hknown : s.bodiesKnown = true)
    (hc : ofCall? s call = some c) (hfields : c.fields? s = some fields)
    (hnames : (fields.filterMap (·.name)).Nodup) (hlambda : c.lambda? s.tree = some lambda)
    (hbody : s.tree.lambdaBody? lambda = some body)
    (hattrs : s.lexical? lambda s.framework.attrsMember = none)
    (honly : s.tree.OnlyAssigns s.framework.attrsMember fields body)
    (hreturns : s.tree.ReturnsOutsideLoops body) :
    ∃ state, c.state? s = some state ∧ state.unknown = [] ∧
      (∀ f ∈ state.assigned.map (·.1), f ∈ fields ∧ ∀ w, s.tree.Finishes body w →
        ∃ e ∈ w, s.tree.AssignsField s.framework.attrsMember f e) ∧
      (s.tree.LoopFree body → (∃ w, s.tree.Finishes body w) →
        ∀ f, f ∈ state.assigned.map (·.1) ↔ f ∈ fields ∧ ∀ w, s.tree.Finishes body w →
          ∃ e ∈ w, s.tree.AssignsField s.framework.attrsMember f e) := by
  obtain ⟨props, hprops⟩ := exists_props hfields
  have h : s.PropsLambda lambda body props :=
    ⟨hbody, lambdaReceiver?_eq ht hc hlambda hprops, hattrs⟩
  have hstate := state?_eq hknown hfields hlambda hbody hprops
  have hdecl : ∀ f ∈ fields, ∀ g ∈ fields, f.decl = g.decl → f = g :=
    fun f hf g hg => eq_of_decl hfields hf hg
  set state := (Solver.ofLambda s lambda body props fields).atSink
  have hmem {x : Field × Assignment} (hx : x ∈ state.assigned) : x.1 ∈ fields :=
    Solver.mem_fields_of_assigned hbody hnames honly hx
  have hsound (f : Field) (hf : f ∈ state.assigned.map (·.1)) : f ∈ fields ∧
      ∀ w, s.tree.Finishes body w → ∃ e ∈ w, s.tree.AssignsField s.framework.attrsMember f e := by
    obtain ⟨x, hx, rfl⟩ := List.mem_map.mp hf
    have hassigns : state.assigns x.1 = true := State.assigns_of_mem hx
    exact ⟨hmem hx, fun w hw =>
      Solver.assigns_sound hbody hnames honly ht hreturns hdecl (hmem hx) hassigns hw⟩
  refine ⟨state, hstate, Solver.unknown_atSink_eq_nil hbody hnames honly, hsound, ?_⟩
  intro hloop hrun f
  refine ⟨hsound f, fun ⟨hf, hall⟩ => ?_⟩
  have hassigns : state.assigns f = true :=
    Solver.assigns_complete h ht hnames hloop hrun hf hall
  obtain ⟨x, hx, hxf⟩ := State.exists_of_assigns hassigns
  rw [← hdecl x.1 (hmem hx) f hf hxf]
  exact List.mem_map_of_mem hx

/-- The statement `if (c) { attrs.f = 1; return } else { throw d }`. -/
def assignOrThrow : Draft (List NodeId) := do
  let c ← Draft.reference "c"
  let first ← Source.assignF
  let leave ← Draft.returns none
  let d ← Draft.reference "d"
  let fail ← Draft.throws d
  let test ← Draft.ifElse c [first, leave] (some [fail])
  return [test]

/-- The one branch that finishes assigns the field, and the field is reported. -/
theorem reported_iff_assigned_assignOrThrow :
    let s : Source :=
      { tree := ((Source.constructionOf (pure []) assignOrThrow).run (Tree.ofFile "F")).2
        framework := {} }
    let c : Construction := { component := { decl := 5, base := 4 }, call := 22 }
    let f := s.tree.fieldAt 1
    s.tree.WellFormed ∧ ofCall? s 22 = some c ∧ c.fields? s = some [f] ∧
      s.tree.OnlyAssigns "attrs" [f] 19 ∧ s.tree.LoopFree 19 ∧ s.tree.Finishes 19 [12] ∧
      ∃ state, c.state? s = some state ∧ state.unknown = [] ∧ state.assigned.map (·.1) = [f] ∧
        ∀ w, s.tree.Finishes 19 w → ∃ e ∈ w, s.tree.AssignsField "attrs" f e := by
  intro s c f
  have ht : s.tree.WellFormed := by decide +kernel
  have hc : ofCall? s 22 = some c := by decide +kernel
  have hfields : c.fields? s = some [f] := by decide +kernel
  have hlambda : c.lambda? s.tree = some 20 := by decide +kernel
  have hbody : s.tree.lambdaBody? 20 = some 19 := by decide +kernel
  have hattrs : s.lexical? 20 "attrs" = none := by decide +kernel
  have hnames : ([f].filterMap (·.name)).Nodup := by decide +kernel
  -- what the body involves
  let all : List (Usage × NodeId) :=
    [(.statement, 19), (.statement, 17), (.expression, 7), (.statement, 16), (.statement, 18),
      (.statement, 12), (.expression, 8), (.expression, 11), (.statement, 13), (.statement, 15),
      (.expression, 14)]
  have hclosed : ∀ y ∈ all, ∀ z ∈ s.tree.needsOf y.1 y.2, z ∈ all := by decide +kernel
  have hall {u : Usage} {x : NodeId} (h : s.tree.Involves .statement 19 u x) : (u, x) ∈ all :=
    h.mem_of_closed (by decide) hclosed
  have hstores : ∀ y ∈ all, s.tree.form y.1 y.2 = .store →
      s.tree.memberStore? y.2 = some ("attrs", "f") := by decide +kernel
  have hloops : ∀ y ∈ all, s.tree.form y.1 y.2 ≠ .repetition := by decide +kernel
  have honly : s.tree.OnlyAssigns "attrs" [f] 19 := fun u e h hform =>
    ⟨f, List.mem_singleton_self f, "f", by decide +kernel, hstores _ (hall h) hform⟩
  have hloop : s.tree.LoopFree 19 := fun u x h => hloops _ (hall h)
  have hpath : ((s.bodyCode 19).flow 20).Path entryId [0, 3, 4, 5, 6, 7, 1] exitId := by
    decide +kernel
  have hwrites : ((s.bodyCode 19).flow 20).writes [0, 3, 4, 5, 6, 7, 1] = [12] := by
    decide +kernel
  have hrun : s.tree.Finishes 19 [12] :=
    (Source.exists_path_iff_finishes hbody ht [12]).mp ⟨_, hpath, hwrites⟩
  obtain ⟨state, hstate, hunknown, -, hiff⟩ := reported_iff_assigned ht rfl hc hfields hnames
    hlambda hbody hattrs honly (fun u x hx hform => absurd hform (hloop u x hx))
  have hreported : state.assigned.map (·.1) = [f] := by
    have h : (c.state? s).map (·.assigned.map (·.1)) = some [f] := by decide +kernel
    rw [hstate] at h
    exact Option.some.inj h
  have hmem : f ∈ state.assigned.map (·.1) := hreported ▸ List.mem_singleton_self f
  exact ⟨ht, hc, hfields, honly, hloop, hrun, state, hstate, hunknown, hreported,
    ((hiff hloop ⟨_, hrun⟩ f).mp hmem).2⟩

end Construction

end ComponentAudit
