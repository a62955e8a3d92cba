import ComponentAudit.Proofs.Edit.Closed

set_option autoImplicit false

/-! # Synchronising twice

A builder function that was synchronised can be synchronised again. Where the lambda has plain
statements only (`Builder.Simple`), the second run finds nothing to do: the first one has closed the
gap (`Builder.Stages.upToDate_after`), it has given no parameter the type of the children parameter,
and it has left no parameter without a use.

Main statement: `Builder.synchronize_settles`. A loop in the lambda is enough for a second run that
edits again (`Builder.synchronize_again_loop`).
-/

namespace ComponentAudit

/-- A task is in step if nothing differs and the children parameter has a name of its own. -/
theorem SyncTask.inStep_of_upToDate {k : SyncTask}
    (hclosed : (k.source.gaps k.state k.fields).upToDate = true)
    (hhandler : ∀ p, k.handler? = some p → ∀ name, k.source.tree.name? p = some name →
      Field.taken k.fields name = false) : k.InStep := by
  simp only [Gaps.upToDate, Bool.and_eq_true, List.isEmpty_iff] at hclosed
  obtain ⟨⟨hmissing, hunknown⟩, houtdated⟩ := hclosed
  refine ⟨fun f hf _ => ?_, ?_, hhandler, ?_⟩
  · have hassigned := List.filter_eq_nil_iff.mp hmissing f hf
    simpa using hassigned
  · rw [houtdated]
    simp
  · rw [show k.state.unknown = [] from hunknown]
    simp

namespace Builder

variable {b : Builder} {fw : Framework} {t : Tree} {k : SyncTask}

/-- Whether a builder function is simple enough to be synchronised once and for all. All of this is
said of the function as it is found. -/
structure Simple (b : Builder) (fw : Framework) (t : Tree) (k : SyncTask) : Prop where
  file : (t.kind t.root).isFile = true
  /-- The function is a declaration of the file. -/
  top : t.parent b.function = some t.root
  /-- The statements neither branch nor loop nor leave. -/
  plain : ∀ x ∈ t.significant k.body, t.PlainStatement fw.attrsMember x
  named : ∀ f ∈ k.fields, f.name.isSome = true
  nodup : (k.fields.filterMap (·.name)).Nodup
  /-- The name of the props is no field's, and it means nothing else in the lambda. -/
  free : ∀ f ∈ k.fields, f.name ≠ some fw.attrsMember
  unbound : ({ tree := t, framework := fw } : Source).lexical? k.body fw.attrsMember = none
  /-- Fields that share a parameter have one type. -/
  shared : t.SharesTypes fw.attrsMember k.body k.fields
  /-- No field has the type by which the children parameter is known. -/
  fieldTypes : ∀ f ∈ k.fields, f.type.any (·.isClass fw.handlerType) = false
  /-- No parameter of that type has the name of a field. -/
  handlers : ∀ p ∈ k.parameters, (t.writtenType? p).any (·.isClass fw.handlerType) = true →
    ∀ name ∈ t.name? p, Field.taken k.fields name = false

namespace Stages

variable {gone : List NodeId} {w u v : Tree} {call lambda : NodeId} {props : TypeExpr}
  (hs : Stages b fw t k gone w u v) (h : b.StraightTask fw t k call lambda props)

include hs h

/-- **A parameter of the handler type at the end** had this type and its name. -/
theorem handler_before (hnamed : ∀ f ∈ k.fields, f.name.isSome = true)
    (htypes : ∀ f ∈ k.fields, f.type.any (·.isClass fw.handlerType) = false) {p : NodeId}
    (hp : p ∈ v.parameters b.function)
    (hhandler : (v.writtenType? p).any (·.isClass fw.handlerType) = true) :
    p ∈ k.parameters ∧ (t.writtenType? p).any (·.isClass fw.handlerType) = true ∧
      v.name? p = t.name? p := by
  have ht := h.wellFormed
  rw [Tree.parameters, (h.parts.edited ht hs.edited_last).list_eq] at hp
  obtain ⟨hp, hparameter⟩ := List.mem_filter.mp hp
  rcases hs.parameter_cases h hp with ⟨hold, hkind⟩ | ⟨f, hf, -, -, -, -, htype⟩
  · refine ⟨?_, ?_, by rw [Tree.name?, Tree.name?, hkind]⟩
    · rw [h.parameters_eq, Tree.parameters, h.parts.list_eq]
      exact List.mem_filter.mpr ⟨hold, hkind ▸ hparameter⟩
    · rw [hs.writtenType?_parameter h.parts ht hp] at hhandler
      rcases hs.supplied.types p hold with ⟨hsame, -⟩ | ⟨type, htype, hretype⟩
      · rwa [hsame] at hhandler
      · -- a type that was changed is that of a field
        obtain ⟨g, hg, -, -, -, -, -, hgtype⟩ := h.field_of_retype hnamed hretype
        rw [htype, ← hgtype, htypes g hg] at hhandler
        cases hhandler
  · rw [htype, htypes f hf] at hhandler
    cases hhandler

end Stages

/-- **A simple builder function is in step after a run.** -/
theorem Simple.inStep (hsimple : b.Simple fw t k) {function : NodeId} {n : Nat} {v : Tree}
    {k' : SyncTask} (ht : t.WellFormed)
    (hb : ofFunction? { tree := t, framework := fw } function = some b)
    (hk : SyncTask.of { tree := t, framework := fw } b = .ok k)
    (hrun : Change.run (b.synchronize fw) t = (.ok n, v))
    (hk' : SyncTask.of { tree := v, framework := fw } b = .ok k') : k'.InStep := by
  obtain ⟨_, _, _, hblock, hsource, -⟩ := SyncTask.of_eq_ok hk
  have hhandler : ∀ p, k.handler? = some p → ∀ name, t.name? p = some name →
      Field.taken k.fields name = false := by
    intro p hp
    have htype := List.find?_some hp
    rw [hsource] at htype
    exact hsimple.handlers p (List.mem_of_find?_eq_some hp) htype
  obtain ⟨call, lambda, props, h⟩ := exists_straightTask ht hb hk hsimple.nodup hhandler
    hsimple.unbound (Tree.straight_of_plain ht hblock.kind_body hsimple.plain)
  obtain ⟨gone, w, u, hs⟩ := h.exists_stages hrun
  -- the second task is about the same construction and the same fields
  have hparts := h.parts.edited ht hs.edited_last
  obtain ⟨-, props', hafter⟩ := hs.exists_straight_after h hsimple.top hsimple.file hsimple.plain
    hsimple.unbound hsimple.free
  obtain ⟨call', _, schema, hparts', hsource', hschema, hfields, hstate, hparameters⟩ :=
    SyncTask.of_eq_ok hk'
  obtain rfl : call' = call := Option.some.inj (hparts'.call_eq.symm.trans hparts.call_eq)
  have hfields' : k'.fields = k.fields := by
    have heq := hafter.fields_eq
    rw [Construction.fields?, hschema, Option.map_some, ← hfields] at heq
    exact Option.some.inj heq
  have hclosed := hs.upToDate_after h hsimple.top hsimple.file hsimple.named hsimple.shared hafter
    hstate
  refine SyncTask.inStep_of_upToDate (by rwa [hsource', hfields']) fun p hp name hname => ?_
  have hmem := List.mem_of_find?_eq_some hp
  have htype := List.find?_some hp
  rw [hparameters] at hmem
  rw [hsource'] at htype hname
  obtain ⟨hold, htypeBefore, hsame⟩ :=
    hs.handler_before h hsimple.named hsimple.fieldTypes hmem htype
  rw [hfields']
  exact hsimple.handlers p hold htypeBefore name (hsame ▸ hname)

/-- **Synchronising twice.** A builder function that was synchronised can be synchronised again at
once. If it was simple before, then the second run makes no edit and changes nothing. -/
theorem synchronize_settles {function : NodeId} {n : Nat} {u : Tree} (ht : t.WellFormed)
    (hb : ofFunction? { tree := t, framework := fw } function = some b)
    (hk : SyncTask.of { tree := t, framework := fw } b = .ok k)
    (hrun : Change.run (b.synchronize fw) t = (.ok n, u)) :
    ∃ m v, Change.run (b.synchronize fw) u = (.ok m, v) ∧
      (b.Simple fw t k → m = 0 ∧ v = u) := by
  obtain ⟨k', hk', -, hused⟩ := exists_task_again ht hb hk hrun
  obtain ⟨m, v, hagain, hiff⟩ :=
    exists_run_of_used (edited_of_run ht hk hrun).1.wellFormed hk' hused
  exact ⟨m, v, hagain, fun hsimple => hiff.mpr (hsimple.inStep ht hb hk hrun hk')⟩

/-- The statements `attrs.a = x; attrs.z = x; attrs.c = x; children()`. -/
def sharedStores : Draft (List NodeId) := do
  let first ← Draft.assignMember "attrs" "a" "x"
  let stray ← Draft.assignMember "attrs" "z" "x"
  let last ← Draft.assignMember "attrs" "c" "x"
  let children ← Draft.call "children" [] none
  return [first, stray, last, children]

/-- Two fields share a parameter of another type, a field is not assigned, a write names no field, a
parameter has no use, and there is a children parameter: the first run makes six edits, the second
one none. -/
theorem synchronize_settles_shared :
    let t := ((propsBuilder ["a", "b", "c"] [("x", "String"), ("old", "Int"),
      ("children", "RHandler")] sharedStores).run (Tree.ofFile "F")).2
    let b : Builder := { component := { decl := 9, base := 8 }, function := 39 }
    t.WellFormed ∧ ofFunction? { tree := t, framework := {} } 39 = some b ∧
      ∃ k u, SyncTask.of { tree := t, framework := {} } b = .ok k ∧ b.Simple {} t k ∧
        Change.run (b.synchronize {}) t = (.ok 6, u) ∧
        Change.run (b.synchronize {}) u = (.ok 0, u) := by
  intro t b
  have hfacts : t.WellFormed ∧ (t.kind t.root).isFile = true ∧
      ofFunction? { tree := t, framework := {} } 39 = some b ∧ t.parent 39 = some t.root ∧
      (∀ x ∈ t.significant 34, t.PlainBelow "attrs" x) ∧
      ({ tree := t, framework := {} } : Source).lexical? 34 "attrs" = none ∧
      ((SyncTask.of { tree := t, framework := {} } b).toOption.map fun k => decide (k.body = 34 ∧
        (∀ f ∈ k.fields, f.name.isSome = true) ∧ (k.fields.filterMap (·.name)).Nodup ∧
        (∀ f ∈ k.fields, f.name ≠ some "attrs") ∧ t.SharesTypes "attrs" 34 k.fields ∧
        (∀ f ∈ k.fields, f.type.any (·.isClass "RHandler") = false) ∧
        ∀ p ∈ k.parameters, (t.writtenType? p).any (·.isClass "RHandler") = true →
          ∀ name ∈ t.name? p, Field.taken k.fields name = false)) = some true ∧
      (Change.run (b.synchronize {}) t).1 = .ok 6 := by decide +kernel
  obtain ⟨ht, hfile, hb, htop, hplain, hattrs, htask, hsix⟩ := hfacts
  obtain ⟨k, hk, hbody, hnamed, hnodup, hfree, hshared, htypes, hhandlers⟩ :=
    exists_of_checked htask
  rcases hrun : Change.run (b.synchronize {}) t with ⟨n, u⟩
  rw [hrun] at hsix
  obtain rfl : n = .ok 6 := hsix
  rw [← hbody] at hplain hattrs hshared
  have hsimple : b.Simple {} t k := ⟨hfile, htop, fun x hx => (hplain x hx).plainStatement ht,
    hnamed, hnodup, hfree, hattrs, hshared, htypes, hhandlers⟩
  obtain ⟨m, v, hagain, hnone⟩ := synchronize_settles ht hb hk hrun
  obtain ⟨rfl, rfl⟩ := hnone hsimple
  exact ⟨ht, hb, k, _, hk, hsimple, rfl, hagain⟩

/-- The statement `while (c) { x }`. -/
def plainLoop : Draft (List NodeId) := do
  let c ← Draft.reference "c"
  let x ← Draft.reference "x"
  let loop ← Draft.whileLoop c [x]
  return [loop]

/-- **A second run that adds an assignment again.** Where the lambda holds a loop, the analysis does
not see the assignment that the first run puts before it. -/
theorem synchronize_again_loop :
    let t := ((Source.constructionOf (pure []) plainLoop).run (Tree.ofFile "F")).2
    let b : Builder := { component := { decl := 5, base := 4 }, function := 16 }
    let fields := (b.component.schema? { tree := t, framework := {} } .props).map
      (·.fields { tree := t, framework := {} })
    t.WellFormed ∧ ofFunction? { tree := t, framework := {} } 16 = some b ∧
      fields.map (·.map (·.name)) = some [some "f"] ∧
      (Change.run (b.synchronize {}) t).1 = .ok 2 ∧
      (Change.run (b.synchronize {}) (Change.run (b.synchronize {}) t).2).1 = .ok 1 ∧
      (Change.run (b.synchronize {}) (Change.run (b.synchronize {}) t).2).2 ≠
        (Change.run (b.synchronize {}) t).2 := by
  decide +kernel

end Builder

end ComponentAudit
