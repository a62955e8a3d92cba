import ComponentAudit.Proofs.Edit.Refusal

set_option autoImplicit false

/-! # A file with one more declaration

What a file keeps when a declaration is put among the others (`Tree.Extended`): everything inside
the other declarations, and what a name means unless it is the name of the new one.

Main statement: `Component.extended_of_addBuilder`. Generating a builder function adds one
declaration, drawn as its blueprint says.
-/

namespace ComponentAudit

namespace Tree

/-- Whether a tree comes from another one by new nodes of which one was put below the root. -/
structure Extended (t : Tree) (new : NodeId) (u : Tree) : Prop where
  wellFormed : u.WellFormed
  root_eq : u.root = t.root
  kind_eq : ∀ {n : NodeId}, n < t.size → u.kind n = t.kind n
  children_eq : ∀ {n : NodeId}, n < t.size → n ≠ t.root → u.children n = t.children n
  children_root : ∃ before after, t.children t.root = before ++ after ∧
    u.children t.root = before ++ new :: after

/-- Above an old node there are only old ones. -/
theorem Grown.lt_size_of_under {t w : Tree} (h : t.Grown [] w) (ht : t.WellFormed) {n a : NodeId}
    (hn : n < t.size) (ha : w.Under n a) : a < t.size := by
  induction ha with
  | refl => exact hn
  | tail _ hp ih =>
      have hp' : t.parent _ = some _ := (h.parent_eq ih (by simp)).symm.trans hp
      exact ht.lt_size hp'

/-- An old node does not lie under a new one. -/
theorem Grown.not_under {t w : Tree} (h : t.Grown [] w) (ht : t.WellFormed) {n new : NodeId}
    (hn : n < t.size) (hnew : t.size ≤ new) : ¬ w.Under n new := fun hunder =>
  Nat.not_lt_of_le hnew (h.lt_size_of_under ht hn hunder)

/-- Putting a new node beside a child of the root. -/
theorem Grown.exists_extended {t w : Tree} (h : t.Grown [] w) (ht : t.WellFormed)
    {anchor new : NodeId} (hnew : t.size ≤ new) (hlt : new < w.size) (hfree : w.parent new = none)
    (hanchor : t.parent anchor = some t.root) (offset : Nat) :
    ∃ i u, (t.children t.root)[i]? = some anchor ∧
      w.insertBeside anchor new offset = (true, u) ∧ t.Extended new u ∧
      u.children t.root = (t.children t.root).take (i + offset) ++
        new :: (t.children t.root).drop (i + offset) ∧
      ∀ {x : NodeId} {k : Kind} {cs : List NodeId}, x ≠ t.root → w.Built x k cs →
        u.Built x k cs := by
  have hroot : t.root < t.size := ht.lt_size hanchor
  have hparent : w.parent anchor = some t.root := by
    rw [h.parent_eq (lt_size_of_parent hanchor) (by simp), hanchor]
  have hnot : ¬ w.Under t.root new := h.not_under ht hroot hnew
  obtain ⟨i, hi, hinsert⟩ := h.wellFormed.insertBeside_of_parent hfree hparent offset
  have hrootw : t.root < w.size := Nat.lt_of_lt_of_le hroot h.size_le
  have hchildren := children_insertChild_of_free hrootw hfree (i + offset)
  have hplace : (w.insertChild t.root (i + offset) new).children t.root =
      (t.children t.root).take (i + offset) ++ new :: (t.children t.root).drop (i + offset) := by
    rw [hchildren, if_pos rfl, h.children_eq hroot]
  refine ⟨i, _, h.children_eq hroot ▸ hi, hinsert, ⟨?_, ?_, ?_, ?_, ?_⟩, hplace, ?_⟩
  · exact h.wellFormed.insertChild hlt hrootw hnot (i + offset)
  · rw [root_insertChild, h.root_eq]
  · intro n hn
    rw [kind_insertChild, h.kind_eq hn]
  · intro n hn hne
    rw [hchildren, if_neg hne, h.children_eq hn]
  · exact ⟨_, _, (List.take_append_drop _ _).symm, hplace⟩
  · intro x k cs hx hbuilt
    refine ⟨?_, ?_, ?_⟩
    · rw [size_insertChild]
      exact hbuilt.lt_size
    · rw [kind_insertChild, hbuilt.kind_eq]
    · rw [hchildren, if_neg hx, hbuilt.children_eq]

theorem WellFormed.ne_root_of_declared {t : Tree} (ht : t.WellFormed) {d : NodeId}
    (hd : d ∈ t.declarations) : d ≠ t.root := by
  rintro rfl
  exact ht.acyclic _ (ht.inside_of_child (mem_children_of_significant hd))

theorem WellFormed.lt_size_of_declared {t : Tree} (ht : t.WellFormed) {d : NodeId}
    (hd : d ∈ t.declarations) : d < t.size :=
  lt_size_of_parent (ht.mem_children_iff.mp (mem_children_of_significant hd))

theorem mem_children_of_members {t : Tree} {d m : NodeId} (h : m ∈ t.members d) :
    m ∈ t.children d := by
  unfold members at h
  split at h
  · exact mem_children_of_significant h
  · split at h
    · exact mem_children_of_significant (List.mem_filter.mp h).1
    · cases h

namespace Extended

variable {t u : Tree} {new : NodeId} (h : t.Extended new u) (ht : t.WellFormed)

include h

theorem parent_new : u.parent new = some t.root := by
  obtain ⟨before, after, -, hu⟩ := h.children_root
  exact h.wellFormed.mem_children_iff.mp (by simp [hu])

include ht

/-- What hangs below an old node is old. -/
theorem kind_child {n c : NodeId} (hc : c ∈ t.children n) : u.kind c = t.kind c :=
  h.kind_eq (lt_size_of_parent (ht.mem_children_iff.mp hc))

theorem significant_eq {n : NodeId} (hn : n < t.size) (hne : n ≠ t.root) :
    u.significant n = t.significant n := by
  rw [significant, significant, h.children_eq hn hne]
  exact List.filter_congr fun c hc => by rw [h.kind_child ht hc]

theorem child?_eq {n : NodeId} (hn : n < t.size) (hne : n ≠ t.root) (test : Kind → Bool) :
    u.child? n test = t.child? n test := by
  rw [child?, child?, h.children_eq hn hne]
  exact List.find?_congr fun c hc => by rw [h.kind_child ht hc]

/-- The declarations with the new one among them. -/
theorem declarations_eq (hnew : (u.kind new).isTrivia = false) :
    ∃ before after, t.declarations = before ++ after ∧ u.declarations = before ++ new :: after := by
  obtain ⟨before, after, hchildren, hchildren'⟩ := h.children_root
  have hkind (c : NodeId) (hc : c ∈ before ++ after) : u.kind c = t.kind c :=
    h.kind_child ht (hchildren ▸ hc)
  refine ⟨before.filter fun c => !(t.kind c).isTrivia, after.filter fun c => !(t.kind c).isTrivia,
    ?_, ?_⟩
  · rw [declarations, significant, hchildren, List.filter_append]
  · rw [declarations, significant, h.root_eq, hchildren', List.filter_append, List.filter_cons,
      if_pos (by simp [hnew])]
    congr 1
    · exact List.filter_congr fun c hc => by rw [hkind c (List.mem_append_left _ hc)]
    · congr 1
      exact List.filter_congr fun c hc => by rw [hkind c (List.mem_append_right _ hc)]

theorem kind_declaration {d : NodeId} (hd : d ∈ t.declarations) : u.kind d = t.kind d :=
  h.kind_child ht (mem_children_of_significant hd)

/-- A name means the same declaration as before, unless it is that of the new one. -/
theorem declaration?_eq (hnew : (u.kind new).isTrivia = false) {name : String}
    (test : Kind → Bool) (hother : u.name? new ≠ some name ∨ test (u.kind new) = false) :
    u.declaration? name test = t.declaration? name test := by
  obtain ⟨before, after, hold, hdecls⟩ := h.declarations_eq ht hnew
  have hskip : (u.name? new == some name && test (u.kind new)) = false := by
    rcases hother with hother | hother
    · simp [hother]
    · simp [hother]
  have hcongr (d : NodeId) (hd : d ∈ t.declarations) :
      (u.name? d == some name && test (u.kind d))
        = (t.name? d == some name && test (t.kind d)) := by
    rw [name?, name?, h.kind_declaration ht hd]
  rw [declaration?, declaration?, hdecls, ← List.find?_congr hcongr, hold, List.find?_append,
    List.find?_append, List.find?_cons, hskip]

/-! What a component and its schema say is inside declarations, and stays. -/

theorem declaredType?_eq {n : NodeId} (hn : n < t.size) (hne : n ≠ t.root) :
    u.declaredType? n = t.declaredType? n := by
  have hwritten : u.writtenType? n = t.writtenType? n := by
    rw [writtenType?, writtenType?, typeRef?, typeRef?, h.child?_eq ht hn hne]
    refine Option.bind_congr fun r hr => ?_
    rw [h.kind_child ht (List.mem_of_find?_eq_some hr)]
  simp only [declaredType?, h.kind_eq hn, hwritten]

theorem ofClass?_eq {d : NodeId} (hd : d ∈ t.declarations) (fw : Framework) :
    Component.ofClass? u fw d = Component.ofClass? t fw d := by
  have hkind := h.kind_declaration ht hd
  have hsuper : u.supertypes d = t.supertypes d := by
    rw [supertypes, supertypes,
      h.children_eq (ht.lt_size_of_declared hd) (ht.ne_root_of_declared hd)]
    exact List.filter_congr fun c hc => by rw [h.kind_child ht hc]
  rw [Component.ofClass?, Component.ofClass?, hkind, hsuper]
  congr 2
  refine List.find?_congr fun c hc => ?_
  rw [supertype?, supertype?, h.kind_child ht (List.mem_filter.mp hc).1]

theorem argument?_eq {c : Component} (hc : c.Declared t) (role : Role) :
    c.argument? u role = c.argument? t role := by
  simp only [Component.argument?, Component.baseType?, supertype?, h.kind_child ht hc.mem_base]

variable {fw : Framework}

theorem schema?_eq {c : Component} (hc : c.Declared t)
    (hnew : (u.kind new).isFunction = true) (role : Role) :
    c.schema? { tree := u, framework := fw } role
      = c.schema? { tree := t, framework := fw } role := by
  have htrivia : (u.kind new).isTrivia = false := by
    cases hk : u.kind new <;> simp_all [Kind.isFunction, Kind.isTrivia]
  have hinterface : (u.kind new).isInterface = false := by
    cases hk : u.kind new <;> simp_all [Kind.isFunction, Kind.isInterface]
  simp only [Component.schema?, h.argument?_eq ht hc,
    h.declaration?_eq ht htrivia Kind.isInterface (.inr hinterface)]
  refine Option.bind_congr fun type _ => Option.bind_congr fun decl hdecl => ?_
  simp only [Schema.of?, Role.of?, h.kind_declaration ht (List.mem_of_find?_eq_some hdecl)]

/-- The fields of a schema stay. -/
theorem fields_eq {i : Schema} (hi : i.decl ∈ t.declarations) :
    i.fields { tree := u, framework := fw } = i.fields { tree := t, framework := fw } := by
  have hlt := ht.lt_size_of_declared hi
  have hne := ht.ne_root_of_declared hi
  have hkind := h.kind_declaration ht hi
  have hmembers : u.members i.decl = t.members i.decl := by
    rw [members, members, hkind, h.significant_eq ht hlt hne]
    split
    · rfl
    · split
      · exact List.filter_congr fun c hc => by
          rw [h.kind_child ht (mem_children_of_significant hc)]
      · rfl
  have hjudge (m : NodeId) (hm : m ∈ t.members i.decl) :
      i.judge { tree := u, framework := fw } m = i.judge { tree := t, framework := fw } m := by
    have hchild := mem_children_of_members hm
    have hmlt : m < t.size := lt_size_of_parent (ht.mem_children_iff.mp hchild)
    have hmne : m ≠ t.root := by
      rintro rfl
      exact ht.acyclic _ ((ht.inside_of_child hchild).trans
        (ht.inside_of_child (mem_children_of_significant hi)))
    have hfield : u.fieldAt m = t.fieldAt m := by
      rw [fieldAt, fieldAt, name?, name?, h.kind_eq hmlt, h.declaredType?_eq ht hmlt hmne]
    simp only [Schema.judge, Schema.judgeProperty, h.kind_eq hmlt, hfield]
  rw [Schema.fields, Schema.fields, Schema.verdicts, Schema.verdicts]
  simp only [hmembers]
  rw [List.map_congr_left hjudge]

end Extended

end Tree

namespace Blueprint

variable {b : Blueprint} {fw : Framework} {t u : Tree} {n : Nodes}

theorem FieldParts.map {attrs : String} {fs : List Field} {ps ss : List NodeId}
    (h : FieldParts t attrs fs ps ss)
    (hu : ∀ {x : NodeId} {k : Kind} {cs : List NodeId}, k.isFile = false → t.Built x k cs →
      u.Built x k cs) : FieldParts u attrs fs ps ss := by
  induction h with
  | nil => exact .nil
  | unnamed hname _ ih => exact .unnamed hname ih
  | @named f fs ps ss cs name p st newline place r m v hname parameter type store blank _ ih =>
      have hstore : u.StoreParts st attrs name name place r m v :=
        ⟨hu rfl store.statement, hu rfl store.place, hu rfl store.receiver, hu rfl store.member,
          hu rfl store.value⟩
      refine .named hname (hu rfl parameter) ?_ hstore (hu rfl blank) ih
      cases htype : f.type with
      | none =>
          rw [htype] at type
          exact type
      | some T =>
          rw [htype] at type
          obtain ⟨ref, hcs, href⟩ := type
          exact ⟨ref, hcs, hu rfl href⟩

/-- What is drawn stays drawn when its nodes, none of which is a file, are kept. -/
theorem Drawn.map (h : b.Drawn fw t n)
    (hu : ∀ {x : NodeId} {k : Kind} {cs : List NodeId}, k.isFile = false → t.Built x k cs →
      u.Built x k cs) : b.Drawn fw u n where
  function := hu rfl h.function
  list := hu rfl h.list
  handler := hu rfl h.handler
  handlerType := hu rfl h.handlerType
  call := hu rfl h.call
  callee := hu rfl h.callee
  classRef := hu rfl h.classRef
  lambda := hu rfl h.lambda
  block := hu rfl h.block
  bodyCall := hu rfl h.bodyCall
  bodyName := hu rfl h.bodyName
  fields := h.fields.map hu

/-- What a blueprint is made from. -/
theorem of_eq_ok {s : Source} {c : Component} {b : Blueprint} (h : Blueprint.of s c = .ok b) :
    c.name? s.tree = some b.componentName ∧ c.builderName? s.tree = some b.functionName ∧
      (∀ schema, c.schema? s .props = some schema →
        b.fields = (schema.fields s).filter (·.name.isSome)) ∧
      b.bodyParameter = bodyName s.framework.bodyParameter b.fields := by
  unfold Blueprint.of at h
  split at h
  · next componentName functionName hname hbuilder =>
    obtain rfl := Except.ok.inj h
    refine ⟨hname, hbuilder, fun schema hschema => ?_, rfl⟩
    simp only [hschema]
  · cases h

end Blueprint

/-- **Generating a builder function adds one declaration**, drawn as its blueprint says. -/
theorem Component.extended_of_addBuilder {t u : Tree} {fw : Framework} {c : Component}
    {b : Builder} (ht : t.WellFormed) (hfile : (t.kind t.root).isFile = true) (hc : c.Declared t)
    (hrun : Change.run (c.addBuilder fw) t = (.ok b, u)) :
    ∃ blueprint n, Blueprint.of { tree := t, framework := fw } c = .ok blueprint ∧
      b = { component := c, function := n.function } ∧ t.Extended n.function u ∧
      blueprint.Drawn fw u n := by
  have hparent : t.parent c.decl = some t.root :=
    ht.mem_children_iff.mp (Tree.mem_children_of_significant hc.mem_declarations)
  have hattached : t.attached c.decl = true :=
    ht.attached_iff.mpr (Relation.ReflTransGen.single hparent)
  obtain ⟨blueprint, hb⟩ := exists_blueprint fw hc.isClass
  obtain ⟨n, w, hgrown, hnew, hfree, hdrawn, hrun'⟩ := run_addBuilder ht hattached hb
  obtain ⟨-, v, -, hinsert, hextended, -, hbuilt⟩ := hgrown.exists_extended ht hnew
    hdrawn.function.lt_size hfree hparent 1
  rw [Tree.insertAfter, hinsert, if_pos rfl, hrun] at hrun'
  obtain ⟨hb', rfl⟩ := Prod.mk.inj hrun'
  refine ⟨blueprint, n, hb, Except.ok.inj hb', hextended, hdrawn.map fun {x k cs} hk hx => ?_⟩
  refine hbuilt ?_ hx
  rintro rfl
  rw [← hx.kind_eq, hgrown.kind_eq (ht.lt_size hparent), hfile] at hk
  cases hk

end ComponentAudit
