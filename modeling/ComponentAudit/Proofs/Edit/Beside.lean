import ComponentAudit.Proofs.Edit.Effect
import ComponentAudit.Proofs.Source.Names

set_option autoImplicit false

/-! # What stands beside a builder function

Edits in the parameter list and in the lambda of a top-level function leave the other declarations
of the file as they are (`Builder.Parts.sameBelow_declaration`). So the component of the function,
the fields of its props and the names of the file mean what they did.

Main statements: `Builder.Parts.ofCall?_eq`, `Builder.Parts.fields?_eq` and
`Builder.Parts.lexical?_function_eq`.
-/

namespace ComponentAudit

/-! ## Declarations that are the same -/

namespace Tree.SameBelow

variable {t u : Tree} {x : NodeId} (h : t.SameBelow u x)

include h

theorem name?_eq : u.name? x = t.name? x := by rw [name?, h.kind_eq, name?]

variable (ht : t.WellFormed)

include ht

theorem declaredType?_eq : u.declaredType? x = t.declaredType? x := by
  have hwritten : u.writtenType? x = t.writtenType? x :=
    writtenType?_congr h.children_eq fun c hc => h.kind_child ht hc
  rw [declaredType?, h.kind_eq, declaredType?, hwritten]

theorem fieldAt_eq : u.fieldAt x = t.fieldAt x := by
  rw [fieldAt, h.name?_eq, h.declaredType?_eq ht, fieldAt]

theorem members_eq : u.members x = t.members x := by
  rw [members, members, h.kind_eq, h.significant_eq ht]
  split
  · rfl
  · split
    · exact List.filter_congr fun c hc => by rw [h.kind_child ht (mem_children_of_significant hc)]
    · rfl

/-- A class is the same component. -/
theorem ofClass?_eq (fw : Framework) : Component.ofClass? u fw x = Component.ofClass? t fw x := by
  have hsupertypes : u.supertypes x = t.supertypes x := by
    rw [supertypes, h.children_eq, supertypes]
    exact List.filter_congr fun c hc => by rw [h.kind_child ht hc]
  rw [Component.ofClass?, Component.ofClass?, h.kind_eq, hsupertypes]
  congr 2
  refine List.find?_congr fun c hc => ?_
  rw [supertype?, supertype?, h.kind_child ht (List.mem_filter.mp hc).1]

end Tree.SameBelow

/-- An interface declares the same fields. -/
theorem Schema.fields_eq_of_sameBelow {t u : Tree} {i : Schema} (fw : Framework)
    (h : t.SameBelow u i.decl) (ht : t.WellFormed) :
    i.fields { tree := u, framework := fw } = i.fields { tree := t, framework := fw } := by
  have hjudge (m : NodeId) (hm : m ∈ t.members i.decl) :
      i.judge { tree := u, framework := fw } m = i.judge { tree := t, framework := fw } m := by
    have hmember := h.child ht (Tree.mem_children_of_members hm)
    simp only [judge, judgeProperty, hmember.kind_eq, hmember.fieldAt_eq ht]
  rw [fields, fields, verdicts, verdicts]
  simp only [h.members_eq ht]
  rw [List.map_congr_left hjudge]

/-! ## The declarations of the file -/

theorem Tree.declaration?_spec {t : Tree} {name : String} {test : Kind → Bool} {d : NodeId}
    (h : t.declaration? name test = some d) :
    d ∈ t.declarations ∧ t.name? d = some name ∧ test (t.kind d) = true := by
  have htest := List.find?_some h
  simp only [Bool.and_eq_true, beq_iff_eq] at htest
  exact ⟨List.mem_of_find?_eq_some h, htest⟩

/-- The interface behind the props or the state of a component. -/
theorem Component.schema?_spec {c : Component} {s : Source} {role : Role} {schema : Schema}
    (h : c.schema? s role = some schema) :
    schema.decl ∈ s.tree.declarations ∧ (s.tree.kind schema.decl).isInterface = true := by
  unfold schema? at h
  obtain ⟨type, -, h⟩ := Option.bind_eq_some_iff.mp h
  obtain ⟨decl, hdecl, h⟩ := Option.bind_eq_some_iff.mp h
  obtain ⟨h, -⟩ := Option.filter_eq_some_iff.mp h
  obtain ⟨role, -, rfl⟩ := Option.map_eq_some_iff.mp h
  obtain ⟨hmem, -, hinterface⟩ := Tree.declaration?_spec hdecl
  exact ⟨hmem, hinterface⟩

theorem Component.role_of_schema? {c : Component} {s : Source} {role : Role} {schema : Schema}
    (h : c.schema? s role = some schema) : schema.role = role := by
  unfold schema? at h
  obtain ⟨type, -, h⟩ := Option.bind_eq_some_iff.mp h
  obtain ⟨decl, -, h⟩ := Option.bind_eq_some_iff.mp h
  simpa using (Option.filter_eq_some_iff.mp h).2

namespace Builder.Parts

variable {b : Builder} {t u : Tree} {fw : Framework} {list call lambda body : NodeId}
  (h : b.Parts t list call lambda body) (ht : t.WellFormed) (hu : t.Edited [list, body] u)

include h ht hu

theorem declaration?_eq (name : String) (test : Kind → Bool) :
    u.declaration? name test = t.declaration? name test := by
  have hkind {d : NodeId} (hd : d ∈ t.declarations) : u.kind d = t.kind d :=
    h.kind_declaration (s := { tree := t, framework := {} }) ht hu hd
  rw [Tree.declaration?, Tree.declaration?,
    h.declarations_eq (s := { tree := t, framework := {} }) ht hu]
  exact List.find?_congr fun d hd => by rw [Tree.name?, Tree.name?, hkind hd]

variable (htop : t.parent b.function = some t.root)

include htop

/-- **The other declarations stay as they are.** -/
theorem sameBelow_declaration {d : NodeId} (hd : d ∈ t.declarations) (hne : d ≠ b.function) :
    t.SameBelow u d := by
  intro y hy
  have hmem := Tree.mem_children_of_significant hd
  have hout : ¬ t.Under y b.function := fun hunder =>
    hne (ht.eq_of_under_siblings (ht.mem_children_iff.mp hmem) htop hy hunder)
  have htops {top : NodeId} (htop : top ∈ [list, body]) : t.Under top b.function := by
    rcases List.mem_pair.mp htop with rfl | rfl
    · exact (h.list_inside_function ht).under
    · exact (h.body_inside_function ht).under
  have hloose : ¬ t.Loose [list, body] y := by
    rintro (hsize | ⟨top, hmem', hinside⟩)
    · have hlt : y < t.size := by
        rcases Tree.under_iff_eq_or_inside.mp hy with rfl | hinside
        · exact (ht.inside_of_child hmem).lt_size
        · exact hinside.lt_size
      exact absurd hlt (Nat.not_lt_of_le hsize)
    · exact hout (hinside.under.trans (htops hmem'))
  exact ⟨hu.kind_eq hloose, hu.children_eq hloose fun hmem' => hout (htops hmem')⟩

/-- The call is the same construction. -/
theorem ofCall?_eq :
    Construction.ofCall? { tree := u, framework := fw } call =
      Construction.ofCall? { tree := t, framework := fw } call := by
  have hcall : ¬ t.Loose [list, body] call :=
    h.not_loose_of_above ht (.tail (.single (ht.mem_children_iff.mp h.mem_body))
      (ht.mem_children_iff.mp h.lambda_spec.1))
  have hcallTop : call ∉ [list, body] :=
    h.not_top (by rw [h.kind_call]; simp) (by rw [h.kind_call]; simp)
  have hchildren := hu.children_eq hcall hcallTop
  have hkind {c : NodeId} (hc : c ∈ t.children call) : u.kind c = t.kind c :=
    hu.kind_child ht hcall hcallTop hc
  have hcallee : u.calleeName? call = t.calleeName? call := by
    rw [Tree.calleeName?, Tree.callee?, hu.kind_eq hcall, hchildren, Tree.calleeName?, Tree.callee?]
    refine Option.bind_congr fun c hc => ?_
    obtain ⟨-, hhead⟩ := Option.ite_none_right_eq_some.mp hc
    rw [Tree.referenceName?, hkind (List.mem_of_head? hhead), Tree.referenceName?]
  have harguments : u.arguments call = t.arguments call := by
    rw [Tree.arguments, hu.kind_eq hcall, hchildren, (h.edited ht hu).lambda_eq, Tree.arguments,
      h.lambda_eq]
  simp only [Construction.ofCall?, hcallee, harguments]
  refine Option.bind_congr fun _ _ => Option.bind_congr fun arg harg => ?_
  have hclass : ({ tree := u, framework := fw } : Source).classOf? arg =
      ({ tree := t, framework := fw } : Source).classOf? arg := by
    simp only [Source.classOf?, hkind (Tree.mem_children_of_arguments (List.mem_of_head? harg)),
      h.declaration?_eq ht hu]
  rw [hclass]
  refine Option.bind_congr fun decl hdecl => ?_
  unfold Source.classOf? at hdecl
  split at hdecl
  · obtain ⟨hmem, -, hisClass⟩ := Tree.declaration?_spec hdecl
    have hne : decl ≠ b.function := by
      rintro rfl
      have hfunction := h.kind_function
      cases hk : t.kind b.function <;> simp_all [Kind.isClass, Kind.isFunction]
    rw [(h.sameBelow_declaration ht hu htop hmem hne).ofClass?_eq ht]
  · cases hdecl

/-- The props have the same fields. -/
theorem fields?_eq {c : Construction} (hc : c.component.Declared t) :
    c.fields? { tree := u, framework := fw } = c.fields? { tree := t, framework := fw } := by
  have hschema := h.schema?_eq (s := { tree := t, framework := fw }) ht hu hc .props
  rw [Construction.fields?, Construction.fields?, hschema]
  refine Option.map_congr fun schema hsome => ?_
  obtain ⟨hmem, hinterface⟩ := Component.schema?_spec hsome
  have hne : schema.decl ≠ b.function := by
    intro heq
    have hfunction := h.kind_function
    rw [← heq] at hfunction
    cases hk : t.kind schema.decl <;> simp_all [Kind.isInterface, Kind.isFunction]
  exact Schema.fields_eq_of_sameBelow fw (h.sameBelow_declaration ht hu htop hmem hne) ht

variable (hfile : (t.kind t.root).isFile = true)

include hfile

/-- The function stays a function of the file. -/
theorem top_edited : u.parent b.function = some u.root ∧ (u.kind u.root).isFile = true := by
  have hfunction : ¬ t.Loose [list, body] b.function :=
    h.not_loose_of_above ht (h.body_inside_function ht).under
  rw [hu.parent_eq hfunction, htop, hu.root_eq, hu.kind_eq (h.not_loose_root ht)]
  exact ⟨rfl, hfile⟩

omit h hu in
/-- Around a top-level function the names are those of the file. -/
theorem lexical?_function (name : String) :
    ({ tree := t, framework := fw } : Source).lexical? b.function name =
      t.declaration? name fun k => k.isInterface || k.isClass || k.isFunction := by
  rw [Source.lexical?, ht.ancestors_of_parent htop, Tree.lineage, Source.lexicalFrom?]
  cases hk : t.kind t.root <;> simp_all [Kind.isFile]

theorem lexical?_function_eq (name : String) :
    ({ tree := u, framework := fw } : Source).lexical? b.function name =
      ({ tree := t, framework := fw } : Source).lexical? b.function name := by
  obtain ⟨htop', hfile'⟩ := h.top_edited ht hu htop hfile
  rw [lexical?_function ht htop hfile, lexical?_function hu.wellFormed htop' hfile',
    h.declaration?_eq ht hu]

omit hu in
/-- A parameter that is stored is the first one of its name. -/
theorem firstNamed?_of_stored {e place value p : NodeId} {name : String} (he : e ∈ t.children body)
    (hk : t.kind e = .assign) (ho : t.operands? e = some (place, value))
    (hvalue : t.kind value = .reference name)
    (hresolve : ({ tree := t, framework := fw } : Source).resolve? value = some p)
    (hp : (t.kind p).isParameter = true) :
    ({ tree := t, framework := fw } : Source).firstNamed? name (t.parameters b.function) =
      some p := by
  obtain ⟨hscope, hq⟩ := h.scope_of_value (s := { tree := t, framework := fw }) ht he hk ho
  have hlexical := Source.lexical?_of_resolve? hvalue hq hresolve hp
  rw [h.lexical?_eq (s := { tree := t, framework := fw }) ht hscope, Option.or_eq_some_iff]
    at hlexical
  refine hlexical.resolve_right fun ⟨_, hdecl⟩ => ?_
  rw [lexical?_function ht htop hfile] at hdecl
  obtain ⟨-, -, htest⟩ := Tree.declaration?_spec hdecl
  cases hkind : t.kind p <;>
    simp_all [Kind.isParameter, Kind.isInterface, Kind.isClass, Kind.isFunction]

end Builder.Parts

end ComponentAudit
