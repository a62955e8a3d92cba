import ComponentAudit.Proofs.Audit.Offered
import ComponentAudit.Proofs.Edit.Inserted

set_option autoImplicit false

/-! # Applying a fix that is offered

A fix looks at its target again when it is applied, and in the file for which it was offered it
finds what it looks for, with two exceptions (`Fix.blocked`). A builder function is to be
synchronised for what its construction leaves out, also where the construction has no lambda that
could be edited. A component is to take its props in the constructor for the sake of an initialiser,
also where its base class names no props type.

Main statement: `Fix.offered_applies_iff`.
-/

namespace ComponentAudit

/-- Whether a part is missing that a fix needs and that the audits do not ask for: the parameter
list or the block of the lambda of a builder function, or the props type of a component. -/
def Fix.blocked (fw : Framework) (t : Tree) : Fix → Bool
  | .synchronize function =>
    (t.parameterList? function).isNone ||
      (((t.functionBody? function).bind t.trailingLambda?).bind t.lambdaBody?).isNone
  | .takeProps component =>
    ((Component.ofClass? t fw component).bind (·.argument? t .props)).isNone
  | _ => false

/-! ## Targets -/

theorem Source.spec_of_mem_schemas {s : Source} {i : Schema} (h : i ∈ s.schemas) :
    i.decl ∈ s.tree.declarations ∧ Role.of? s.tree s.framework i.decl = some i.role := by
  obtain ⟨d, hd, hof⟩ := List.mem_filterMap.mp h
  obtain ⟨role, hrole, rfl⟩ := Option.map_eq_some_iff.mp hof
  exact ⟨hd, hrole⟩

theorem Component.ofClass?_of_mem_all {t : Tree} {fw : Framework} {c : Component}
    (h : c ∈ Component.all t fw) : ofClass? t fw c.decl = some c := by
  obtain ⟨d, -, hof⟩ := List.mem_filterMap.mp h
  rw [decl_of_ofClass? hof, hof]

theorem Component.mem_members_of_initializer {s : Source} {c : Component} {i : Initializer}
    (h : i ∈ c.initializers s) : i.function ∈ s.tree.members c.decl := by
  obtain ⟨m, hm, hof⟩ := List.mem_filterMap.mp h
  unfold initializer? at hof
  obtain ⟨-, -, hof⟩ := Option.bind_eq_some_iff.mp hof
  obtain ⟨-, -, hof⟩ := Option.bind_eq_some_iff.mp hof
  dsimp only at hof
  split at hof
  · cases hof
    exact hm
  · obtain ⟨-, -, hof⟩ := Option.bind_eq_some_iff.mp hof
    cases hof
    exact hm
  · cases hof

/-- What makes a function the builder function of a construction. -/
theorem Construction.spec_of_builder? {s : Source} {c : Construction} {b : Builder}
    (h : c.builder? s = some b) :
    s.tree.parent c.call = some b.function ∧ s.extendsBuilder b.function = true ∧
      s.tree.functionBody? b.function = some c.call ∧ b.component = c.component := by
  unfold builder? at h
  obtain ⟨function, hparent, h⟩ := Option.bind_eq_some_iff.mp h
  obtain ⟨_, hguard, h⟩ := Option.bind_eq_some_iff.mp h
  cases h
  obtain ⟨hextends, hbody⟩ :=
    Bool.and_eq_true_iff.mp (Option.ite_none_right_eq_some.mp hguard).1
  exact ⟨hparent, hextends, of_decide_eq_true hbody, rfl⟩

/-- A builder function can be given any name. -/
theorem Construction.exists_renamed {s : Source} {c : Construction} {b : Builder}
    (h : c.builder? s = some b) (name : String) :
    ∃ kind, (s.tree.kind b.function).renamed? name = some kind := by
  obtain ⟨-, hextends, -, -⟩ := spec_of_builder? h
  unfold Source.extendsBuilder at hextends
  cases hk : s.tree.kind b.function <;> simp_all [Kind.receiver?, Kind.renamed?]

section Attached

variable {t : Tree} {fw : Framework} (ht : t.WellFormed)

include ht

theorem Tree.attached_declaration {d : NodeId} (hd : d ∈ t.declarations) :
    t.attached d = true :=
  ht.attached_iff.mpr
    (.single (ht.mem_children_iff.mp (mem_children_of_significant hd)))

theorem Tree.attached_member {d m : NodeId} (hd : d ∈ t.declarations) (hm : m ∈ t.members d) :
    t.attached m = true :=
  ht.attached_iff.mpr (.head (ht.mem_children_iff.mp (mem_children_of_members hm))
    (ht.attached_iff.mp (attached_declaration ht hd)))

/-- A builder function whose construction is in the file is in the file too, since the file is no
construction itself. -/
theorem Construction.attached_builder (hfile : (t.kind t.root).isFile = true) {call : NodeId}
    {c : Construction} {b : Builder} (hcall : call ∈ t.descendants t.root)
    (hc : ofCall? { tree := t, framework := fw } call = some c)
    (hb : c.builder? { tree := t, framework := fw } = some b) : t.attached b.function = true := by
  obtain ⟨rfl, hkind, -⟩ := spec_of_ofCall? hc
  obtain ⟨hparent, -⟩ := spec_of_builder? hb
  rw [ht.attached_iff]
  have hunder := ht.under_of_mem_preorder hcall
  rcases Relation.ReflTransGen.cases_head hunder with heq | ⟨p, hp, hunder⟩
  · rw [← heq, show t.kind c.call = .call from hkind] at hfile
    cases hfile
  · obtain rfl := Option.some.inj (hp.symm.trans hparent)
    exact hunder

end Attached

/-! ## Runs -/

namespace Change

variable {t : Tree} {fw : Framework} {target : NodeId}

theorem run_makeMutable {decl : PropertyDecl} (hattached : t.attached target = true)
    (hkind : t.kind target = .property decl) : Change.run (makeMutable target) t =
      (.ok (), t.setKind target (.property { decl with mutable := true })) := by
  unfold makeMutable
  rw [run_needTarget_bind, if_pos hattached, run_bind_ok (run_get t), hkind]
  rfl

theorem run_renameDeclaration {name : String} {kind : Kind} (hattached : t.attached target = true)
    (hkind : (t.kind target).renamed? name = some kind) :
    Change.run (renameDeclaration target (some name)) t = (.ok (), t.setKind target kind) := by
  unfold renameDeclaration
  rw [run_needTarget_bind, if_pos hattached, run_bind_ok (run_get t), hkind]
  rfl

theorem run_takeProps {c : Component} (hattached : t.attached c.decl = true)
    (hclass : Component.ofClass? t fw c.decl = some c) :
    Change.run (takeProps fw c.decl) t =
      match c.argument? t .props with
      | some props => Change.run (c.passProps props) t
      | none => (.error (.staleTarget c.decl), t) := by
  have hneed : Change.run (needComponent fw c.decl) t = (.ok c, t) := by
    rw [run_needComponent, if_pos hattached, hclass]
    rfl
  unfold takeProps
  rw [run_bind_ok hneed, run_bind_ok (run_get t)]
  cases c.argument? t .props <;> rfl

/-- Where there is no builder function, generating it anew is adding one. -/
theorem run_regenerate_missing {c : Component} (hattached : t.attached c.decl = true)
    (hclass : Component.ofClass? t fw c.decl = some c)
    (hbuilder : c.builder? { tree := t, framework := fw } = none) :
    Change.run (regenerate fw c.decl) t = Change.run (c.addBuilder fw >>= fun _ => pure ()) t := by
  have hneed : Change.run (needComponent fw c.decl) t = (.ok c, t) := by
    rw [run_needComponent, if_pos hattached, hclass]
    rfl
  rw [run_regenerate hneed, hbuilder]

/-- A builder function is synchronised exactly if its parts are there. -/
theorem run_synchronize_iff (ht : t.WellFormed) {b : Builder} {i : Schema}
    (hattached : t.attached b.function = true)
    (hof : Builder.ofFunction? { tree := t, framework := fw } b.function = some b)
    (hcall : ∃ call, t.functionBody? b.function = some call ∧ t.kind call = .call)
    (hschema : b.component.schema? { tree := t, framework := fw } .props = some i) :
    (∃ u, Change.run (Change.synchronize fw b.function) t = (.ok (), u)) ↔
      (Fix.synchronize b.function).blocked fw t = false := by
  have hrun : Change.run (Change.synchronize fw b.function) t =
      Change.run (b.synchronize fw >>= fun _ => pure ()) t := by
    unfold Change.synchronize
    rw [run_needTarget_bind, if_pos hattached, run_bind_ok (run_source fw), hof]
  obtain ⟨call, hbody, hkind⟩ := hcall
  simp only [Fix.blocked, hbody, Option.bind_some, Bool.or_eq_false_iff, Option.isNone_eq_false_iff,
    Option.isSome_iff_exists, Option.bind_eq_some_iff]
  rw [hrun]
  constructor
  · rintro ⟨u, hok⟩
    rcases hsync : Change.run (b.synchronize fw) t with ⟨r, v⟩
    cases r with
    | error e => cases (run_bind_error hsync _).symm.trans hok
    | ok n =>
        obtain ⟨k, hk⟩ := Builder.exists_task_of_run hsync
        obtain ⟨call', lambda, -, hparts, -⟩ := SyncTask.of_eq_ok hk
        obtain rfl : call' = call := Option.some.inj (hparts.call_eq.symm.trans hbody)
        exact ⟨⟨_, hparts.list_eq⟩, _, lambda, hparts.lambda_eq, hparts.body_eq⟩
  · rintro ⟨⟨list, hlist⟩, body, lambda, hlambda, hblock⟩
    have hparts : b.Parts t list call lambda body :=
      ⟨hattached, hlist, hbody, hkind, hlambda, hblock⟩
    obtain ⟨k, hk⟩ := SyncTask.exists_of (s := { tree := t, framework := fw }) hparts rfl hschema
    exact ⟨_, (run_bind_ok (Builder.run_synchronize ht hk rfl rfl) _).trans rfl⟩

end Change

namespace Fix

variable {t : Tree} {fw : Framework}

/-! ## Runs of offered fixes

What each fix does where it is offered. -/

section Offered

variable (ht : t.WellFormed)

include ht

theorem run_makeMutable {i : Schema} {m : NodeId} {decl : PropertyDecl}
    (hi : i ∈ Source.schemas { tree := t, framework := fw }) (hm : m ∈ t.members i.decl)
    (hkind : t.kind m = .property decl) : Change.run ((makeMutable m).apply fw) t =
      (.ok (), t.setKind m (.property { decl with mutable := true })) :=
  Change.run_makeMutable (Tree.attached_member ht (Source.spec_of_mem_schemas hi).1 hm) hkind

/-- A member is taken out of whatever the removal has made of the builder functions. -/
theorem run_removeMember (hfile : (t.kind t.root).isFile = true) {d m : NodeId}
    (hd : d ∈ t.declarations) (hm : m ∈ t.members d) :
    ∃ u : Tree, u.WellFormed ∧
      Change.run ((removeDeclaration m).apply fw) t = (.ok (), u.detach m) :=
  Change.run_removeDeclaration ht (.inr hfile) (Tree.attached_member ht hd hm)

theorem run_removeSchema {i : Schema} (hi : i ∈ Source.schemas { tree := t, framework := fw }) :
    ∃ u : Tree, u.WellFormed ∧
      Change.run ((removeSchema i.decl i.role).apply fw) t = (.ok (), u.detach i.decl) := by
  obtain ⟨hdecl, hrole⟩ := Source.spec_of_mem_schemas hi
  exact Change.run_removeSchema ht (Tree.attached_declaration ht hdecl) hrole

theorem run_takeProps {c : Component} (hc : c ∈ Component.all t fw) :
    Change.run ((takeProps c.decl).apply fw) t =
      match c.argument? t .props with
      | some props => Change.run (c.passProps props) t
      | none => (.error (.staleTarget c.decl), t) :=
  Change.run_takeProps
    (Tree.attached_declaration ht (Component.declared_of_mem_all hc).mem_declarations)
    (Component.ofClass?_of_mem_all hc)

theorem run_regenerate {c : Component} (hc : c ∈ Component.all t fw)
    (hbuilder : c.builder? { tree := t, framework := fw } = none) :
    ∃ b u, Change.run (c.addBuilder fw) t = (.ok b, u) ∧
      Change.run ((regenerate c.decl).apply fw) t = (.ok (), u) := by
  have hdeclared := Component.declared_of_mem_all hc
  have hattached := Tree.attached_declaration ht hdeclared.mem_declarations
  obtain ⟨b, u, hadd⟩ := Component.run_addBuilder_of_parent fw ht hdeclared.isClass hattached
    (hdeclared.parent_decl ht)
  have hrun := Change.run_regenerate_missing hattached (Component.ofClass?_of_mem_all hc) hbuilder
  exact ⟨b, u, hadd, hrun.trans (Change.run_bind_ok hadd _)⟩

theorem run_renameBuilder (hfile : (t.kind t.root).isFile = true) {call : NodeId}
    {c : Construction} {b : Builder} (hcall : call ∈ t.descendants t.root)
    (hc : Construction.ofCall? { tree := t, framework := fw } call = some c)
    (hb : c.builder? { tree := t, framework := fw } = some b) (name : String) :
    ∃ kind, (t.kind b.function).renamed? name = some kind ∧
      Change.run ((rename b.function (some name)).apply fw) t =
        (.ok (), t.setKind b.function kind) := by
  obtain ⟨kind, hkind⟩ := Construction.exists_renamed hb name
  have hattached := Construction.attached_builder ht hfile hcall hc hb
  exact ⟨kind, hkind, Change.run_renameDeclaration hattached hkind⟩

end Offered

/-- **Offered fixes apply, but for two cases.** A fix that the audits offer for a file, other than a
rename that has yet to be given a name, can be applied to that file exactly if it is not blocked: a
builder function is synchronised if it has a parameter list and its construction a lambda, and a
component takes its props if its base class names a type for them. All other fixes always apply. -/
theorem offered_applies_iff (ht : t.WellFormed) (hfile : (t.kind t.root).isFile = true)
    {d : Diagnostic} {x : Fix} (hd : d ∈ ({ tree := t, framework := fw } : Source).auditAll)
    (hx : x ∈ d.fixes) (hname : ∀ target, x ≠ .rename target none) :
    (∃ u, Change.run (x.apply fw) t = (.ok (), u)) ↔ x.blocked fw t = false := by
  have hfree {u : Tree} (h : Change.run (x.apply fw) t = (.ok (), u))
      (hblocked : x.blocked fw t = false) :
      (∃ u, Change.run (x.apply fw) t = (.ok (), u)) ↔ x.blocked fw t = false :=
    iff_of_true ⟨u, h⟩ hblocked
  cases Source.offers_of_mem hd hx with
  | makeMutable hi hm hkind hdecl => exact hfree (run_makeMutable ht hi hm hkind) rfl
  | renameMember hi hm => exact absurd rfl (hname _)
  | removeMember hi hm =>
      obtain ⟨u, -, hrun⟩ := run_removeMember ht hfile (Source.spec_of_mem_schemas hi).1 hm
      exact hfree hrun rfl
  | removeSchema hi =>
      obtain ⟨u, -, hrun⟩ := run_removeSchema ht hi
      exact hfree hrun rfl
  | removeInitializer hc hi =>
      obtain ⟨u, -, hrun⟩ := run_removeMember ht hfile
        (Component.declared_of_mem_all hc).mem_declarations
        (Component.mem_members_of_initializer hi)
      exact hfree hrun rfl
  | @takeProps c hc hprops =>
      have hdeclared := Component.declared_of_mem_all hc
      rw [run_takeProps ht hc, Fix.blocked, Component.ofClass?_of_mem_all hc, Option.bind_some]
      cases c.argument? t .props with
      | none => simp
      | some props =>
          exact iff_of_true (Change.run_passProps
            (Tree.attached_declaration ht hdeclared.mem_declarations) props) rfl
  | regenerate hc hbuilder =>
      obtain ⟨b, u, -, hrun⟩ := run_regenerate ht hc hbuilder
      exact hfree hrun rfl
  | @renameBuilder call c b name hcall hc hb _ =>
      obtain ⟨kind, -, hrun⟩ := run_renameBuilder ht hfile hcall hc hb name
      exact hfree hrun rfl
  | @synchronize call c b i hcall hc hb hschema =>
      have hattached := Construction.attached_builder ht hfile hcall hc hb
      obtain ⟨rfl, hkind, -⟩ := Construction.spec_of_ofCall? hc
      obtain ⟨-, hextends, hbody, hcomponent⟩ := Construction.spec_of_builder? hb
      have hof : Builder.ofFunction? { tree := t, framework := fw } b.function = some b := by
        simp [Builder.ofFunction?, guard, hextends, hbody, hc, ← hcomponent]
      exact Change.run_synchronize_iff ht hattached hof ⟨c.call, hbody, hkind⟩
        (hcomponent ▸ hschema)

/-- The function builds with a lambda, so the fix that its audit offers applies. -/
theorem offered_applies_iff_stale :
    let t := ((Source.constructionOf Builder.staleParameters Builder.staleStatements).run
      (Tree.ofFile "F")).2
    t.WellFormed ∧ (t.kind t.root).isFile = true ∧
      (∃ d ∈ ({ tree := t, framework := {} } : Source).auditAll, Fix.synchronize 29 ∈ d.fixes) ∧
      (Fix.synchronize 29).blocked {} t = false ∧
      ∃ u, Change.run ((Fix.synchronize 29).apply {}) t = (.ok (), u) := by
  intro t
  have hfacts : t.WellFormed ∧ (t.kind t.root).isFile = true ∧
      (∃ d ∈ ({ tree := t, framework := {} } : Source).auditAll, Fix.synchronize 29 ∈ d.fixes) ∧
      (Fix.synchronize 29).blocked {} t = false := by decide +kernel
  obtain ⟨ht, hfile, ⟨d, hd, hx⟩, hblocked⟩ := hfacts
  exact ⟨ht, hfile, ⟨d, hd, hx⟩, hblocked,
    (offered_applies_iff ht hfile hd hx (by simp)).mpr hblocked⟩

/-- A component `C` whose props have the field `f`, and `fun RBuilder.c() = child(C::class)`. -/
def bareConstruction : Draft NodeId := do
  let f ← Draft.property "f" (some (.simple "Int")) true
  let props ← Draft.interface "CProps" [.simple "RProps"] [f]
  let _ ← Draft.declare props
  let passed ← Draft.reference "props"
  let base ← Draft.supertype (.generic "RComponent" [.simple "CProps", .simple "RState"])
    (some [passed])
  let component ← Draft.classDecl "C" none [base] []
  let _ ← Draft.declare component
  let name ← Draft.classRef "C"
  let call ← Draft.call "child" [name] none
  let decl : FunctionDecl := { name := some "c", receiver := some (.simple "RBuilder") }
  let function ← Draft.function decl [] call
  Draft.declare function

/-- A component `class C : T() { fun CState.init(props: CProps) { } }`. -/
def initialized (type : TypeExpr) : Draft NodeId := do
  let base ← Draft.supertype type (some [])
  let props ← Draft.parameter "props" (some (.simple "CProps")) none
  let body ← Draft.block []
  let decl : FunctionDecl := { name := some "init", receiver := some (.simple "CState") }
  let init ← Draft.function decl [props] body
  let component ← Draft.classDecl "C" none [base] [init]
  Draft.declare component

/-- **Two offered fixes that are refused.** The audits offer to synchronise a builder function
without a lambda, and to hand props to a base class that names no type for them. -/
theorem offered_fix_refused :
    let t := (bareConstruction.run (Tree.ofFile "F")).2
    let u := ((initialized (.simple "RComponent")).run (Tree.ofFile "F")).2
    t.WellFormed ∧ (t.kind t.root).isFile = true ∧
      (∃ d ∈ ({ tree := t, framework := {} } : Source).auditAll, Fix.synchronize 11 ∈ d.fixes) ∧
      (Change.run ((Fix.synchronize 11).apply {}) t).1 = .error (.missingLambdaBody 9) ∧
      u.WellFormed ∧ (u.kind u.root).isFile = true ∧
      (∃ d ∈ ({ tree := u, framework := {} } : Source).auditAll, Fix.takeProps 7 ∈ d.fixes) ∧
      (Change.run ((Fix.takeProps 7).apply {}) u).1 = .error (.staleTarget 7) := by
  decide +kernel

end Fix

end ComponentAudit
