import ComponentAudit.Audit
import ComponentAudit.Proofs.Assign.Anchors
import ComponentAudit.Proofs.Edit.Parts
import ComponentAudit.Proofs.Source.Trivia

set_option autoImplicit false

/-! # Trivia and the audits

Blanks and comments are invisible to the audits. Where one is put between the children of a
construct that allows it, everything that the audits look at stays the same: the schemas with their
fields, the components with their initialisers, and the constructions with what they assign. The
states of the constructions are found over another tree, in which the places of writes meet where
they met before.

Main statement: `Source.audit_ignores_trivia`.
-/

namespace ComponentAudit

namespace Source.Padded

variable {s s' : Source} {x : NodeId} (h : s.Padded x s')

include h

/-! ## Schemas -/

theorem schemaOf?_eq (fw : Framework) (decl : NodeId) :
    Schema.of? s'.tree fw decl = Schema.of? s.tree fw decl := by
  simp only [Schema.of?, Role.of?, h.interfaceSupertypes_eq]

theorem judge_eq (i : Schema) (member : NodeId) : i.judge s' member = i.judge s member := by
  have hfield : s'.tree.fieldAt member = s.tree.fieldAt member := by
    rw [Tree.fieldAt, Tree.fieldAt, h.name?_eq, h.declaredType?_eq]
  have hproperty (decl : PropertyDecl) :
      i.judgeProperty s' member decl = i.judgeProperty s member decl := by
    simp only [Schema.judgeProperty, h.framework_eq, hfield]
  unfold Schema.judge
  simp only [hproperty]
  rcases h.kind_cases member with hk | ⟨text, hk | hk, hk'⟩
  · rw [hk]
  · rw [hk, hk']
  · rw [hk, hk']

theorem verdicts_eq (i : Schema) : i.verdicts s' = i.verdicts s := by
  rw [Schema.verdicts, Schema.verdicts, h.members_eq, funext (h.judge_eq i)]

theorem fields_eq (i : Schema) : i.fields s' = i.fields s := by
  rw [Schema.fields, Schema.fields, h.verdicts_eq]

theorem refusals_eq (i : Schema) : i.refusals s' = i.refusals s := by
  rw [Schema.refusals, Schema.refusals, h.verdicts_eq]

theorem auditSchemas_eq (log : Log) : s'.auditSchemas log = s.auditSchemas log := by
  have haudit (i : Schema) (log : Log) : i.audit s' log = i.audit s log := by
    rw [Schema.audit, Schema.audit, h.refusals_eq, h.fields_eq]
  simp only [auditSchemas, h.declarations_eq, h.framework_eq, funext (h.schemaOf?_eq _), haudit]

theorem schema?_eq (c : Component) (role : Role) : c.schema? s' role = c.schema? s role := by
  have hdecl (name : String) := h.declaration?_eq Kind.isInterface (fun _ => ⟨rfl, rfl⟩) name
  simp only [Component.schema?, h.argument?_eq, hdecl, h.framework_eq,
    h.schemaOf?_eq]

/-! ## States -/

/-- A write is placed at an assignment, which the new node is not. -/
theorem within_assignmentOf (i : Instr) : (s.assignmentOf i).Within (· ≠ x) := by
  intro n hn
  have hkind := (Option.filter_eq_some_iff.mp hn).2
  exact h.ne_of_kind_ne (by rw [eq_of_beq hkind]; rfl)

theorem writesWithin_byName {flow : Flow} {matcher : Matcher}
    (hm : ∀ i w, matcher i = some w → ∃ fields name, w = .byName fields name
      (s.assignmentOf (flow.instr i))) :
    Solver.WritesWithin (· ≠ x) { tree := s.tree, flow, matcher } := by
  intro i f a hi
  obtain ⟨fields, name, hw⟩ := hm i _ hi
  unfold Write.byName at hw
  split at hw
  · cases hw
    exact h.within_assignmentOf _
  · cases hw

section

variable (ht : s.tree.WellFormed)

include ht

theorem sameMeets : s.tree.SameMeets (· ≠ x) s'.tree where
  eq := h.commonAncestor?_eq ht
  closed := fun _ hb hc => h.ne_of_commonAncestor? ht hb hc

theorem assignmentOf_eq (i : Instr) : s'.assignmentOf i = s.assignmentOf i := by
  have hassign (e : NodeId) := h.apply_kind (· == .assign) (fun _ => ⟨rfl, rfl⟩) e
  have hreference (e : NodeId) := h.apply_kind Kind.isReference (fun _ => ⟨rfl, rfl⟩) e
  have hparameter (e : NodeId) := h.apply_kind Kind.isParameter (fun _ => ⟨rfl, rfl⟩) e
  have hstored : s'.storedParameter? = s.storedParameter? := by
    funext e
    simp only [storedParameter?, h.operands?_eq, hreference, h.resolve?_eq ht, hparameter]
  simp only [assignmentOf, hassign, hstored]

theorem builderMatcher_eq (flow : Flow) (lambda : NodeId) (props : TypeExpr)
    (fields : List Field) : s'.builderMatcher flow lambda props fields =
      s.builderMatcher flow lambda props fields := by
  have hselect (place : NodeId) : (guard (s'.tree.kind place = .select) : Option Unit) =
      guard (s.tree.kind place = .select) := by
    simp only [guard, h.kind_eq_iff (k := .select) rfl]
  have hreads : s'.readsAttrs = s.readsAttrs := by
    funext lambda i
    rw [readsAttrs, readsAttrs, h.framework_eq]
  unfold builderMatcher
  simp only [hselect]
  rw [hreads, funext h.operands?_eq, funext (h.typeOf?_eq ht), funext h.referenceName?_eq,
    funext (h.assignmentOf_eq ht)]

theorem stateMatcher_eq (flow : Flow) (function : NodeId) (state : TypeExpr)
    (fields : List Field) : s'.stateMatcher flow function state fields =
      s.stateMatcher flow function state fields := by
  funext i
  simp only [stateMatcher, h.referenceName?_eq, h.assignmentOf_eq ht]

theorem constructionState?_eq (c : Construction) : c.state? s' = c.state? s := by
  have hfields : c.fields? s' = c.fields? s := by
    simp only [Construction.fields?, h.schema?_eq, h.fields_eq]
  have hsink (fields : List Field) (lambda : NodeId) (props : TypeExpr) (flow : Flow) :
      Solver.atSink ⟨s'.tree, flow, s.builderMatcher flow lambda props fields⟩ =
        Solver.atSink ⟨s.tree, flow, s.builderMatcher flow lambda props fields⟩ := by
    refine Solver.atSink_congr (h.sameMeets ht) (h.writesWithin_byName fun i w hw => ?_)
    obtain ⟨-, -, -, -, -, -, name, -, -, -, -, -, -, hw⟩ := builderMatcher_cases hw
    exact ⟨fields, name, hw⟩
  simp only [Construction.state?, hfields, Construction.lambda?, h.trailingLambda?_eq,
    h.argument?_eq, h.flow?_eq ht, h.builderMatcher_eq ht, hsink]

theorem initializerState?_eq (i : Initializer) (fields : List Field) :
    i.state? s' fields = i.state? s fields := by
  have hsink (state : TypeExpr) (flow : Flow) :
      Solver.atSink ⟨s'.tree, flow, s.stateMatcher flow i.function state fields⟩ =
        Solver.atSink ⟨s.tree, flow, s.stateMatcher flow i.function state fields⟩ := by
    refine Solver.atSink_congr (h.sameMeets ht) (h.writesWithin_byName fun j w hw => ?_)
    split at hw
    · obtain ⟨name, -, hw⟩ := Option.bind_eq_some_iff.mp hw
      obtain ⟨-, -, hw⟩ := Option.bind_eq_some_iff.mp hw
      exact ⟨fields, name, (Option.some.inj hw).symm⟩
    · cases hw
  simp only [Initializer.state?, h.flow?_eq ht, h.argument?_eq, h.stateMatcher_eq ht, hsink]

/-! ## Components -/

omit ht in
theorem passesProps_eq (c : Component) : c.passesProps s'.tree = c.passesProps s.tree := by
  unfold Component.passesProps
  rw [h.significant_eq]
  rcases h.kind_cases c.base with hk | ⟨text, hk | hk, hk'⟩
  · rw [hk]
  · rw [hk, hk']
  · rw [hk, hk']

omit ht in
theorem hasOwn_eq (c : Component) (fw : Framework) (role : Role) :
    c.hasOwn s'.tree fw role = c.hasOwn s.tree fw role := by
  rw [Component.hasOwn, Component.hasOwn, h.argument?_eq]

omit ht in
theorem argumentName_eq (c : Component) (fw : Framework) (role : Role) :
    c.argumentName s'.tree fw role = c.argumentName s.tree fw role := by
  rw [Component.argumentName, Component.argumentName, h.argument?_eq]

omit ht in
theorem initializers_eq (c : Component) : c.initializers s' = c.initializers s := by
  have hreceiver (m : NodeId) := h.apply_kind Kind.receiver? (fun _ => ⟨rfl, rfl⟩) m
  have hof : c.initializer? s' = c.initializer? s := by
    funext m
    simp only [Component.initializer?, guard, hreceiver, h.name?_eq, h.framework_eq,
      h.argument?_eq, h.parameters_eq, h.writtenType?_eq]
  rw [Component.initializers, Component.initializers, h.members_eq, hof]

omit ht in
theorem extendsBuilder_eq (f : NodeId) : s'.extendsBuilder f = s.extendsBuilder f := by
  rw [extendsBuilder, extendsBuilder, h.framework_eq,
    h.apply_kind Kind.receiver? (fun _ => ⟨rfl, rfl⟩)]

theorem builder?_eq {c : Component} (hc : c.decl ≠ x) : c.builder? s' = c.builder? s := by
  have hfunction (f : NodeId) := h.apply_kind Kind.isFunction (fun _ => ⟨rfl, rfl⟩) f
  simp only [Component.builder?, Component.builderName?, Component.name?, h.name?_eq,
    h.container?_eq ht hc, h.significant_eq, hfunction, h.extendsBuilder_eq]

theorem leftOut_eq (c : Component) (i : Initializer) : c.leftOut s' i = c.leftOut s i := by
  have hmissing : i.missing s' = i.missing s := by
    simp only [Initializer.missing, h.schema?_eq, h.fields_eq, h.initializerState?_eq ht]
  simp only [Component.leftOut, hmissing, h.framework_eq, h.argumentName_eq]

theorem componentAudit_eq {c : Component} (hc : c.decl ≠ x) (log : Log) :
    c.audit s' log = c.audit s log := by
  have hprops : c.propsDiagnostics s' = c.propsDiagnostics s := by
    rw [Component.propsDiagnostics, Component.propsDiagnostics, h.framework_eq, h.hasOwn_eq,
      h.passesProps_eq]
  have hstate : c.stateDiagnostics s' = c.stateDiagnostics s := by
    simp only [Component.stateDiagnostics, h.initializers_eq, Component.uninitialized,
      h.schema?_eq, h.fields_eq, Component.withheldProps, h.passesProps_eq, h.framework_eq,
      h.argumentName_eq, funext (h.leftOut_eq ht c)]
  have hbuilder : c.builderDiagnostics s' = c.builderDiagnostics s := by
    simp only [Component.builderDiagnostics, h.builder?_eq ht hc, h.schema?_eq]
  rw [Component.audit, Component.audit, hprops, hstate, hbuilder]

theorem auditComponents_eq (log : Log) : s'.auditComponents log = s.auditComponents log := by
  have hall : Component.all s'.tree s'.framework = Component.all s.tree s.framework := by
    rw [Component.all, Component.all, h.declarations_eq, h.framework_eq,
      funext (h.ofClass?_eq s.framework)]
  rw [auditComponents, auditComponents, hall]
  refine List.foldl_ext _ _ _ fun log c hc => h.componentAudit_eq ht ?_ log
  obtain ⟨d, hd, hof⟩ := List.mem_filterMap.mp hc
  rw [Component.decl_of_ofClass? hof]
  exact h.ne_of_mem_children (Tree.mem_children_of_significant hd)

/-! ## Constructions -/

omit ht in
theorem ofCall?_eq (call : NodeId) :
    Construction.ofCall? s' call = Construction.ofCall? s call := by
  simp only [Construction.ofCall?, guard, h.calleeName?_eq, h.framework_eq, h.arguments_eq,
    h.classOf?_eq, h.ofClass?_eq]

theorem gaps?_eq (c : Construction) : c.gaps? s' = c.gaps? s := by
  simp only [Construction.gaps?, Construction.fields?, h.schema?_eq, h.fields_eq,
    h.constructionState?_eq ht, gaps, outdated?, h.declaredType?_eq]

omit ht in
theorem constructionBuilder?_eq {c : Construction} (hc : c.call ≠ x) :
    c.builder? s' = c.builder? s := by
  simp only [Construction.builder?, guard, h.parent_eq hc, h.extendsBuilder_eq,
    h.functionBody?_eq]

theorem constructionAudit_eq {c : Construction} (hc : c.call ≠ x) (log : Log) :
    c.audit s' log = c.audit s log := by
  have hbuilder (g : Gaps) (b : Builder) :
      c.builderDiagnostics s' g b = c.builderDiagnostics s g b := by
    simp only [Construction.builderDiagnostics, Construction.nameDiagnostics, h.framework_eq,
      Component.builderName?, Component.name?, h.name?_eq, h.argumentName_eq, h.schema?_eq]
  have hcall (g : Gaps) : c.callDiagnostics s' g = c.callDiagnostics s g := by
    simp only [Construction.callDiagnostics, h.framework_eq, h.argumentName_eq, h.callee?_eq]
  simp only [Construction.audit, h.gaps?_eq ht, h.constructionBuilder?_eq hc, hbuilder, hcall]

theorem auditConstructions_eq (log : Log) :
    s'.auditConstructions log = s.auditConstructions log := by
  have hself : Construction.ofCall? s x = none := by
    rw [Option.eq_none_iff_forall_ne_some]
    intro c hc
    have hkind := (Construction.spec_of_ofCall? hc).2.1
    rw [h.kind_self] at hkind
    cases hkind
  have hskip (l : List NodeId) : l.filterMap (Construction.ofCall? s) =
      (l.filter (· != x)).filterMap (Construction.ofCall? s) := by
    rw [List.filterMap_filter]
    refine List.filterMap_congr fun n _ => ?_
    by_cases hn : n = x
    · simp [hn, hself]
    · simp [hn]
  have hcalls : (s'.tree.descendants s'.tree.root).filterMap (Construction.ofCall? s') =
      (s.tree.descendants s.tree.root).filterMap (Construction.ofCall? s) := by
    rw [funext h.ofCall?_eq, hskip, Tree.descendants, h.filter_preorder, h.root_eq, ← hskip,
      ht.preorder_eq_descendants h.pos h.grown]
  rw [auditConstructions, auditConstructions, hcalls]
  refine List.foldl_ext _ _ _ fun log c hc => h.constructionAudit_eq ht ?_ log
  obtain ⟨call, -, hof⟩ := List.mem_filterMap.mp hc
  rw [(Construction.spec_of_ofCall? hof).1]
  rintro rfl
  rw [hself] at hof
  cases hof

end

end Source.Padded

namespace Source

/-- **Trivia are invisible.** A new blank or comment between the children of a construct that allows
it changes nothing of what the audits report. -/
theorem audit_ignores_trivia {s : Source} (ht : s.tree.WellFormed) {k : Kind}
    (hk : k.isTrivia = true) {p : NodeId} (hp : (s.tree.kind p).allowsTrivia = true) (i : Nat) :
    ({ s with tree := (s.tree.push k).insertChild p i s.tree.size } : Source).auditAll =
      s.auditAll := by
  have h : s.Padded s.tree.size
      { s with tree := (s.tree.push k).insertChild p i s.tree.size } :=
    { ht.padded hk hp i with framework_eq := rfl, bodiesKnown_eq := rfl }
  unfold auditAll auditWith Audit.all
  simp only [List.foldl_cons, List.foldl_nil, Audit.run]
  rw [h.auditSchemas_eq, h.auditComponents_eq ht, h.auditConstructions_eq ht]

/-- The statements `if (c) { attrs.f = 1 } else { attrs.f = 1 }; attrs.h = c`. -/
def eitherWay : Draft (List NodeId) := do
  let c ← Draft.reference "c"
  let first ← assignF
  let second ← assignF
  let test ← Draft.ifElse c [first] (some [second])
  let stray ← Draft.assignMember "attrs" "h" "c"
  return [test, stray]

/-- A comment between the two statements of a lambda in which two writes of a field meet. The stray
write is reported three times, and the props that are not passed on once. -/
theorem audit_ignores_trivia_eitherWay :
    let s : Source :=
      { tree := ((constructionOf (pure []) eitherWay).run (Tree.ofFile "F")).2, framework := {} }
    s.tree.WellFormed ∧ (s.tree.kind 26).allowsTrivia = true ∧ s.auditAll.length = 4 ∧
      ({ s with tree := (s.tree.push (.comment "// h")).insertChild 26 1 s.tree.size } :
        Source).auditAll = s.auditAll := by
  intro s
  have ht : s.tree.WellFormed := by decide +kernel
  have hp : (s.tree.kind 26).allowsTrivia = true := by decide +kernel
  exact ⟨ht, hp, by decide +kernel, audit_ignores_trivia ht rfl hp 1⟩

end Source

end ComponentAudit
