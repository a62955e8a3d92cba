import ComponentAudit.Proofs.Edit.Generated
import ComponentAudit.Proofs.Edit.Inserted

set_option autoImplicit false

/-! # Generated builder functions are up to date

Whether synchronising finds anything to do in a builder function that has just been generated. The
function assigns every field from a parameter of the field's type and uses all its parameters
(`Proofs/Edit/Generated.lean`), and the rest of the file is as before (`Proofs/Edit/Inserted.lean`),
so the task for it can only fail to be in step in two ways: the parameter of a field of the handler
type is taken for the one for the children, or the one for the children has the name under which
the lambda assigns the props.

Main statement: `Component.generated_upToDate_iff`.
-/

namespace ComponentAudit

/-! ## The name of the parameter for the children -/

/-- The names that the parameter for the children can get. -/
def bodyNames (base : String) : List String :=
  base :: (List.range' 1 9).map fun i => base ++ toString i

theorem taken_bodyNameFrom {base : String} {fields : List Field} {tries index : Nat}
    {name : String}
    (h : ∃ x ∈ name :: (List.range' index tries).map fun i => base ++ toString i,
      Field.taken fields x = false) :
    Field.taken fields (bodyNameFrom base fields tries index name) = false := by
  induction tries generalizing index name with
  | zero =>
      obtain ⟨x, hx, hfree⟩ := h
      rw [bodyNameFrom, ← List.mem_singleton.mp hx]
      exact hfree
  | succ tries ih =>
      rw [bodyNameFrom]
      split
      · next htaken =>
        obtain ⟨x, hx, hfree⟩ := h
        refine ih ⟨x, ?_, hfree⟩
        rcases List.mem_cons.mp hx with rfl | hx
        · rw [htaken] at hfree
          cases hfree
        · rw [List.range'_succ, List.map_cons] at hx
          exact hx
      · next htaken => exact Bool.eq_false_iff.mpr htaken

/-- The name chosen is free when one of the names is. -/
theorem taken_bodyName {base : String} {fields : List Field}
    (h : ∃ name ∈ bodyNames base, Field.taken fields name = false) :
    Field.taken fields (bodyName base fields) = false :=
  taken_bodyNameFrom h

theorem Source.outdated_gaps_eq_nil {s : Source} {state : State} {fields : List Field}
    (h : ∀ x ∈ state.assigned, s.outdated? x.1 x.2 = none) :
    (s.gaps state fields).outdated = [] :=
  List.filterMap_eq_nil_iff.mpr fun x hx => h x hx

namespace Blueprint

/-! ## The task for a generated function -/

namespace Placed

variable {b : Blueprint} {s : Source} {n : Nodes} (h : b.Placed s n)

include h

/-- The name of the props is free unless the parameter for the children has it. -/
theorem attrs_free (hfields : ∀ f ∈ b.fields, f.name ≠ some s.framework.attrsMember)
    (hdecl : (s.tree.declaration? s.framework.attrsMember
      fun k => k.isInterface || k.isClass || k.isFunction) = none)
    (hbody : b.bodyParameter ≠ s.framework.attrsMember) :
    s.lexical? n.lambda s.framework.attrsMember = none := by
  have hnone : s.firstNamed? s.framework.attrsMember (n.parameters ++ [n.handler]) = none := by
    refine List.find?_eq_none.mpr fun p hp => ?_
    rcases List.mem_append.mp hp with hp | hp
    · obtain ⟨f, hf, hfp⟩ := h.drawn.fields.parameter_cases hp
      simpa [hfp.name_eq] using hfields f hf
    · rw [List.mem_singleton.mp hp, h.name?_handler]
      simpa using hbody
  rw [h.lexical?_lambda, hnone, hdecl]
  rfl

/-- The parameter of a field has a name that is taken. -/
theorem taken_of_parameter {p : NodeId} (hp : p ∈ n.parameters) :
    ∃ name, s.tree.name? p = some name ∧ Field.taken b.fields name = true := by
  obtain ⟨f, hf, hfp⟩ := h.drawn.fields.parameter_cases hp
  obtain ⟨name, hname⟩ := Option.ne_none_iff_exists'.mp (h.named f hf)
  exact ⟨name, hfp.name_eq.trans hname, List.any_eq_true.mpr ⟨f, hf, by simp [hname]⟩⟩

/-- What the task for a generated function is about. -/
theorem task_spec {c : Component} {k : SyncTask} (hknown : s.bodiesKnown = true)
    (hfields : ({ component := c, call := n.call } : Construction).fields? s = some b.fields)
    (hk : SyncTask.of s { component := c, function := n.function } = .ok k) :
    ∃ props, c.argument? s.tree .props = some props ∧ k.source = s ∧ k.fields = b.fields ∧
      k.state = (Solver.ofLambda s n.lambda n.block props b.fields).atSink ∧
      k.handler? = (n.parameters ++ [n.handler]).find? fun p =>
        (s.tree.writtenType? p).any (·.isClass s.framework.handlerType) := by
  obtain ⟨call, lambda, schema, hparts, hsource, hschema, hkfields, hstate, hparameters⟩ :=
    SyncTask.of_eq_ok hk
  obtain rfl : n.call = call := Option.some.inj ((h.parts c).call_eq.symm.trans hparts.call_eq)
  obtain ⟨props, hprops⟩ := Construction.exists_props hfields
  have hsolver := Construction.state?_eq hknown hfields h.drawn.trailingLambda?_eq
    h.lambdaBody?_eq hprops
  refine ⟨props, hprops, hsource, ?_, Option.some.inj (hstate.symm.trans hsolver), ?_⟩
  · have hsome : some (schema.fields s) = some b.fields := by
      rw [← hfields, Construction.fields?, hschema]
      rfl
    rw [hkfields, Option.some.inj hsome]
  · rw [SyncTask.handler?, hparameters, h.parameters_eq, hsource]

/-- **When a generated function is in step with its props.** -/
theorem inStep_iff {c : Component} {k : SyncTask} (hknown : s.bodiesKnown = true)
    (hcall : Construction.ofCall? s n.call = some { component := c, call := n.call })
    (hfields : ({ component := c, call := n.call } : Construction).fields? s = some b.fields)
    (hattrs : ∀ f ∈ b.fields, f.name ≠ some s.framework.attrsMember)
    (hdecl : (s.tree.declaration? s.framework.attrsMember
      fun k => k.isInterface || k.isClass || k.isFunction) = none)
    (hk : SyncTask.of s { component := c, function := n.function } = .ok k) :
    k.InStep ↔ (∀ f ∈ b.fields, f.type.any (·.isClass s.framework.handlerType) = false) ∧
      (b.bodyParameter = s.framework.attrsMember → b.fields = []) := by
  obtain ⟨props, hprops, hsource, hkfields, hkstate, hhandler⟩ := h.task_spec hknown hfields hk
  constructor
  · intro hstep
    constructor
    · intro f hf
      refine Bool.eq_false_iff.mpr fun htype => ?_
      -- the first parameter of the type belongs to a field, and would be renamed
      obtain ⟨p, hp, hfind⟩ := h.exists_find?_handler hf htype
      obtain ⟨name, hname, htaken⟩ := h.taken_of_parameter hp
      have hfree := hstep.handler p (hhandler.trans hfind) name (by rw [hsource, hname])
      rw [hkfields, htaken] at hfree
      cases hfree
    · intro hbody
      refine List.eq_nil_iff_forall_not_mem.mpr fun f hf => ?_
      -- the assignments are to members of a parameter, so none of them counts
      have hbound : s.lexical? n.lambda s.framework.attrsMember = some n.handler :=
        h.lexical?_parameter (by simp) (hbody ▸ h.name?_handler)
      have hassigns := hstep.assigned f (hkfields ▸ hf) (h.named f hf)
      rw [hkstate, State.assigns, State.get?, h.assigned_eq_nil hbound] at hassigns
      cases hassigns
  · rintro ⟨htypes, hbody⟩
    refine ⟨?_, ?_, ?_, ?_⟩
    · intro f hf _
      rw [hkfields] at hf
      have hne : b.bodyParameter ≠ s.framework.attrsMember := fun heq =>
        List.not_mem_nil (hbody heq ▸ hf)
      have hlambdaProps : s.PropsLambda n.lambda n.block props :=
        ⟨h.lambdaBody?_eq, Construction.lambdaReceiver?_eq h.wellFormed hcall
          h.drawn.trailingLambda?_eq hprops, h.attrs_free hattrs hdecl hne⟩
      rw [hkstate]
      exact h.assigns hlambdaProps hf
    · have hnone : (s.gaps k.state k.fields).outdated = [] :=
        Source.outdated_gaps_eq_nil fun x hx => h.outdated?_eq_none
          (fun f hf g hg => Construction.eq_of_decl hfields hf hg) (hkstate ▸ hx)
      rw [hsource, hnone]
      intro o ho
      cases ho
    · intro p hp name hname
      rw [hhandler, h.find?_handler htypes] at hp
      cases hp
      rw [hsource, h.name?_handler] at hname
      cases hname
      rw [hkfields, h.free]
    · rw [hkstate, Solver.unknown_atSink_eq_nil h.lambdaBody?_eq h.nodup h.onlyAssigns]
      intro a ha
      cases ha

end Placed

end Blueprint

/-! ## Generating and synchronising -/

namespace Component

variable {t u : Tree} {fw : Framework} {c : Component} {b : Builder} {schema : Schema}
  {fields : List Field}

/-- A schema is declared in the file. -/
theorem declared_of_schema? {s : Source} {role : Role} (h : c.schema? s role = some schema) :
    schema.decl ∈ s.tree.declarations := by
  obtain ⟨type, -, h⟩ := Option.bind_eq_some_iff.mp h
  obtain ⟨decl, hdecl, hof⟩ := Option.bind_eq_some_iff.mp h
  obtain ⟨role, -, rfl⟩ := Option.map_eq_some_iff.mp (Option.filter_eq_some_iff.mp hof).1
  exact List.mem_of_find?_eq_some hdecl

/-- The only class of its name is the one that the name means. -/
theorem declaration?_of_unique (hc : c.Declared t)
    (hunique : ∀ d ∈ t.declarations, (t.kind d).isClass = true → t.name? d = t.name? c.decl →
      d = c.decl) {name : String} (hname : t.name? c.decl = some name) :
    t.declaration? name Kind.isClass = some c.decl := by
  cases hd : t.declaration? name Kind.isClass with
  | none =>
      have hnot := List.find?_eq_none.mp hd c.decl hc.mem_declarations
      simp [hname, hc.isClass] at hnot
  | some d =>
      have hfound := List.find?_some hd
      simp only [Bool.and_eq_true, beq_iff_eq] at hfound
      rw [hunique d (List.mem_of_find?_eq_some hd) hfound.2 (hfound.1.trans hname.symm)]

/-- The call of a generated function constructs the component. -/
theorem ofCall?_generated {blueprint : Blueprint} {n : Blueprint.Nodes} (ht : t.WellFormed)
    (hclass : ofClass? t fw c.decl = some c) (htop : c.decl ∈ t.declarations)
    (hunique : ∀ d ∈ t.declarations, (t.kind d).isClass = true → t.name? d = t.name? c.decl →
      d = c.decl) (hname : c.name? t = some blueprint.componentName)
    (hextended : t.Extended n.function u) (hdrawn : blueprint.Drawn fw u n) :
    Construction.ofCall? { tree := u, framework := fw } n.call
      = some { component := c, call := n.call } := by
  have hcallee : u.calleeName? n.call = some fw.constructionFunction := by
    simp [Tree.calleeName?, Tree.callee?, hdrawn.call.kind_eq, hdrawn.call.children_eq,
      Tree.referenceName?, hdrawn.callee.kind_eq, Kind.referenceName?]
  have harg : (u.arguments n.call).head? = some n.classRef := by
    have hne : n.classRef ≠ n.lambda := by
      intro heq
      have hkind := hdrawn.classRef.kind_eq
      rw [heq, hdrawn.lambda.kind_eq] at hkind
      cases hkind
    simp [Tree.arguments, hdrawn.call.kind_eq, hdrawn.call.children_eq, hdrawn.trailingLambda?_eq,
      hne]
  have hdecl : u.declaration? blueprint.componentName Kind.isClass = some c.decl := by
    rw [hextended.declaration?_eq ht (by rw [hdrawn.function.kind_eq]; rfl) _
      (.inr (by rw [hdrawn.function.kind_eq]; rfl))]
    exact declaration?_of_unique (declared_of_ofClass? hclass htop) hunique hname
  have hcomponent : ofClass? u fw c.decl = some c := (hextended.ofClass?_eq ht htop fw).trans hclass
  simp [Construction.ofCall?, hcallee, harg, Source.classOf?, hdrawn.classRef.kind_eq, hdecl,
    hcomponent]

/-- **What generating leaves**: the function stands in its file as its blueprint says, and the rest
of the file is as before. -/
theorem placed_of_addBuilder (ht : t.WellFormed) (hfile : (t.kind t.root).isFile = true)
    (hc : c.Declared t) (hschema : c.schema? { tree := t, framework := fw } .props = some schema)
    (hfields : schema.fields { tree := t, framework := fw } = fields)
    (hnamed : ∀ f ∈ fields, f.name ≠ none) (hnodup : (fields.filterMap (·.name)).Nodup)
    (hbody : ∃ name ∈ bodyNames fw.bodyParameter, Field.taken fields name = false)
    (hrun : Change.run (c.addBuilder fw) t = (.ok b, u)) :
    ∃ (blueprint : Blueprint) (n : Blueprint.Nodes),
      b = { component := c, function := n.function } ∧ t.Extended n.function u ∧
      blueprint.Placed { tree := u, framework := fw } n ∧ blueprint.fields = fields ∧
      blueprint.bodyParameter = bodyName fw.bodyParameter fields ∧
      c.name? t = some blueprint.componentName ∧ c.builderName? t = u.name? n.function := by
  obtain ⟨blueprint, n, hb, hbuilder, hextended, hdrawn⟩ := extended_of_addBuilder ht hfile hc hrun
  obtain ⟨hname, hfunction, hbfields, hbbody⟩ := Blueprint.of_eq_ok hb
  have hbfields : blueprint.fields = fields := by
    rw [hbfields schema hschema, hfields]
    exact List.filter_eq_self.mpr fun f hf => Option.isSome_iff_ne_none.mpr (hnamed f hf)
  obtain rfl := hbfields
  refine ⟨blueprint, n, hbuilder, hextended, ⟨hextended.wellFormed, ?_, hdrawn, ?_, hnamed, hnodup,
    ?_⟩, rfl, hbbody, hname, ?_⟩
  · show (u.kind u.root).isFile = true
    have hparent : t.parent c.decl = some t.root :=
      ht.mem_children_iff.mp (Tree.mem_children_of_significant hc.mem_declarations)
    rw [hextended.root_eq, hextended.kind_eq (ht.lt_size hparent), hfile]
  · rw [hextended.parent_new, ← hextended.root_eq]
  · rw [hbbody]
    exact taken_bodyName hbody
  · rw [hfunction, Tree.name?, hdrawn.function.kind_eq]
    rfl

/-- **A generated builder function can be synchronised, and is up to date** just when no field has
the type of the parameter for the children, and that parameter does not have the name under which
the lambda assigns the props, unless there is no field. The class of the component is the only one
of its name in the file, its fields have different names, and neither a field nor a declaration of
the file, the function included, has the name of the props. -/
theorem generated_upToDate_iff (ht : t.WellFormed) (hfile : (t.kind t.root).isFile = true)
    (hclass : ofClass? t fw c.decl = some c) (htop : c.decl ∈ t.declarations)
    (hunique : ∀ d ∈ t.declarations, (t.kind d).isClass = true → t.name? d = t.name? c.decl →
      d = c.decl)
    (hschema : c.schema? { tree := t, framework := fw } .props = some schema)
    (hfields : schema.fields { tree := t, framework := fw } = fields)
    (hnamed : ∀ f ∈ fields, f.name ≠ none) (hnodup : (fields.filterMap (·.name)).Nodup)
    (hattrs : ∀ f ∈ fields, f.name ≠ some fw.attrsMember)
    (hdecls : ∀ d ∈ t.declarations, t.name? d ≠ some fw.attrsMember)
    (hbuilder : c.builderName? t ≠ some fw.attrsMember)
    (hbody : ∃ name ∈ bodyNames fw.bodyParameter, Field.taken fields name = false)
    (hrun : Change.run (c.addBuilder fw) t = (.ok b, u)) :
    ∃ m v, Change.run (b.synchronize fw) u = (.ok m, v) ∧
      ((m = 0 ∧ v = u) ↔ (∀ f ∈ fields, f.type.any (·.isClass fw.handlerType) = false) ∧
        (bodyName fw.bodyParameter fields = fw.attrsMember → fields = [])) := by
  have hc : c.Declared t := declared_of_ofClass? hclass htop
  obtain ⟨blueprint, n, rfl, hextended, hplaced, rfl, hbbody, hname, hfunction⟩ :=
    placed_of_addBuilder ht hfile hc hschema hfields hnamed hnodup hbody hrun
  have hdrawn := hplaced.drawn
  set s : Source := { tree := u, framework := fw }
  have hkind : (u.kind n.function).isFunction = true := by
    rw [hdrawn.function.kind_eq]
    rfl
  -- the schema and its fields are those of before
  have hschema' : c.schema? s .props = some schema :=
    (hextended.schema?_eq ht hc hkind .props).trans hschema
  have hfields' : schema.fields s = blueprint.fields :=
    (hextended.fields_eq ht (declared_of_schema? hschema)).trans hfields
  have hdecl : (u.declaration? fw.attrsMember
      fun k => k.isInterface || k.isClass || k.isFunction) = none := by
    rw [hextended.declaration?_eq ht (by rw [hdrawn.function.kind_eq]; rfl) _
      (.inl (hfunction ▸ hbuilder))]
    exact List.find?_eq_none.mpr fun d hd => by simp [hdecls d hd]
  obtain ⟨k, hk⟩ := SyncTask.exists_of (s := s) (hplaced.parts c) rfl hschema'
  obtain ⟨call, lambda, -, hparts, -⟩ := SyncTask.of_eq_ok hk
  have hused : s.unused n.function k.body = [] := by
    rw [(hplaced.parts c).body_unique hparts]
    exact hplaced.unused_eq_nil
  have hstep := hplaced.inStep_iff rfl
    (ofCall?_generated ht hclass htop hunique hname hextended hdrawn)
    (by rw [Construction.fields?, hschema', ← hfields']; rfl) hattrs hdecl hk
  obtain ⟨m, v, hsync, hiff⟩ := Builder.exists_run_of_used hextended.wellFormed hk hused
  refine ⟨m, v, hsync, hiff.trans (hstep.trans ?_)⟩
  rw [hbbody]

/-- A component `C` whose props have fields of the given names and types. Answers the class. -/
def withFields (fields : List (String × TypeExpr)) : Draft NodeId := do
  let members ← fields.mapM fun f => Draft.property f.1 (some f.2) true
  let props ← Draft.interface "CProps" [.simple "RProps"] members
  let _ ← Draft.declare props
  let base ← Draft.supertype (.generic "RComponent" [.simple "CProps", .simple "RState"]) (some [])
  let component ← Draft.classDecl "C" none [base] []
  Draft.declare component

/-- A field that takes the usual name of the parameter for the children. -/
theorem generated_upToDate_iff_bodyField :
    let t := ((withFields [("f", .simple "Int"), ("body", .simple "String")]).run
      (Tree.ofFile "F")).2
    let c : Component := { decl := 7, base := 6 }
    let fields := [t.fieldAt 1, t.fieldAt 3]
    t.WellFormed ∧ ofClass? t {} 7 = some c ∧
      (c.schema? { tree := t, framework := {} } .props).map
        (·.fields { tree := t, framework := {} }) = some fields ∧
      bodyName "body" fields = "body1" ∧
      ∃ b u, Change.run (c.addBuilder {}) t = (.ok b, u) ∧
        Change.run (b.synchronize {}) u = (.ok 0, u) := by
  intro t c fields
  have hfacts : t.WellFormed ∧ (t.kind t.root).isFile = true ∧ ofClass? t {} 7 = some c ∧
      7 ∈ t.declarations ∧
      (∀ d ∈ t.declarations, (t.kind d).isClass = true → t.name? d = t.name? 7 → d = 7) ∧
      c.schema? { tree := t, framework := {} } .props = some { decl := 5, role := .props } ∧
      ({ decl := 5, role := .props } : Schema).fields { tree := t, framework := {} } = fields ∧
      (∀ f ∈ fields, f.name ≠ none) ∧ (fields.filterMap (·.name)).Nodup ∧
      (∀ f ∈ fields, f.name ≠ some "attrs") ∧ (∀ d ∈ t.declarations, t.name? d ≠ some "attrs") ∧
      c.builderName? t ≠ some "attrs" ∧
      (∃ name ∈ bodyNames "body", Field.taken fields name = false) ∧
      bodyName "body" fields = "body1" ∧
      (∀ f ∈ fields, f.type.any (·.isClass "RHandler") = false) ∧
      (Change.run (c.addBuilder {}) t).1 = .ok { component := c, function := 34 } := by
    decide +kernel
  obtain ⟨ht, hfile, hclass, htop, hunique, hschema, hfields, hnamed, hnodup, hattrs, hdecls,
    hbuilder, hbody, hname, htypes, hok⟩ := hfacts
  rcases hrun : Change.run (c.addBuilder {}) t with ⟨r, u⟩
  rw [hrun] at hok
  obtain rfl : r = .ok { component := c, function := 34 } := hok
  obtain ⟨m, v, hsync, hiff⟩ := generated_upToDate_iff ht hfile hclass htop hunique hschema hfields
    hnamed hnodup hattrs hdecls hbuilder hbody hrun
  obtain ⟨rfl, rfl⟩ := hiff.mpr ⟨htypes, fun h => by rw [hname] at h; simp at h⟩
  refine ⟨ht, hclass, ?_, hname, _, _, rfl, hsync⟩
  rw [hschema, Option.map_some, hfields]

/-- **A generated function that is not up to date.** The field `f` has the type of the parameter for
the children, so its parameter is taken for that one and renamed to `body`, together with its use.
Then `body` means this parameter, and the one for the children is removed. -/
theorem generated_handlerField_changed :
    let t := ((withFields [("f", .generic "RHandler" [.simple "CProps"])]).run
      (Tree.ofFile "F")).2
    let c : Component := { decl := 5, base := 4 }
    let b : Builder := { component := c, function := 24 }
    let u := (Change.run (c.addBuilder {}) t).2
    t.WellFormed ∧ ofClass? t {} 5 = some c ∧ t.declarations = [3, 5] ∧
      (c.schema? { tree := t, framework := {} } .props).map
        (·.fields { tree := t, framework := {} }) = some [t.fieldAt 1] ∧
      (t.fieldAt 1).name = some "f" ∧ (Change.run (c.addBuilder {}) t).1 = .ok b ∧
      (Change.run (b.synchronize {}) u).1 = .ok 3 ∧ (Change.run (b.synchronize {}) u).2 ≠ u := by
  decide +kernel

end Component

end ComponentAudit
