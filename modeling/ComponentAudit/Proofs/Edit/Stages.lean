import ComponentAudit.Proofs.Edit.Supply

set_option autoImplicit false

/-! # The stages of a synchronisation

A builder function is first given what it lacks, then the statements that write no field are
removed, and at last the parameters without a use. Which edits there are in the first stage is said
by `SyncTask.Wants`, and what each stage leaves by `Builder.Stages`.

Main statements: `SyncTask.wants_front` and `Builder.StraightTask.exists_stages`.
-/

namespace ComponentAudit

theorem Field.taken_of_mem {fields : List Field} {f : Field} {name : String} (hf : f ∈ fields)
    (hname : f.name = some name) : Field.taken fields name = true :=
  List.any_eq_true.mpr ⟨f, hf, by simp [hname]⟩

namespace SyncTask

/-! ## The edits of the first stage -/

/-- The edits that are made before statements are removed. -/
def front (k : SyncTask) : Plan :=
  (k.fields.foldl k.planField { plan := k.retypeOutdated ++ k.renameHandler }).plan

theorem plan_eq (k : SyncTask) : k.plan = k.front ++ k.strayWrites.map .dropStatement := rfl

/-- The edits that a task can ask for while it goes through the fields, renaming apart. -/
inductive Wants (k : SyncTask) : Edit → Prop
  /-- A parameter is stored in a field of another type. -/
  | outdated {o : Mismatch} {type : TypeExpr} (ho : o ∈ (k.source.gaps k.state k.fields).outdated)
      (hp : o.parameter ∈ k.parameters) (htype : o.field.type = some type) :
      Wants k (.retype o.parameter type)
  /-- A field that is not assigned finds a parameter of its name and of another type. -/
  | retype {f : Field} {name : String} {p : NodeId} {type written : TypeExpr} (hf : f ∈ k.fields)
      (hname : f.name = some name) (hmissing : k.state.get? f = none)
      (hp : k.existing? name = some p) (htype : f.type = some type)
      (hwritten : k.source.tree.declaredType? p = some written) (hne : written ≠ type) :
      Wants k (.retype p type)
  /-- A field that is not assigned finds no parameter of its name. -/
  | parameter {f : Field} {name : String} {after : Option Anchor} (hf : f ∈ k.fields)
      (hname : f.name = some name) (hmissing : k.state.get? f = none)
      (hnone : k.existing? name = none) : Wants k (.addParameter k.list after name f.type)
  /-- A field is not assigned. -/
  | statement {f : Field} {name : String} {after : Option Anchor} (hf : f ∈ k.fields)
      (hname : f.name = some name) (hmissing : k.state.get? f = none) :
      Wants k (.addAssignment k.body after k.source.framework.attrsMember name)

variable {k : SyncTask} {p : Progress} {f : Field} {name : String} {e : Edit}

/-- What becomes of a plan when a field needs a parameter. -/
theorem supplyParameter_cases (k : SyncTask) (p : Progress) (f : Field) (name : String) :
    (∃ q, k.existing? name = some q ∧
      ((∀ type written, f.type = some type → k.source.tree.declaredType? q = some written →
          written = type) ∧
          k.supplyParameter p f name = { p with parameter := some (.existing q) } ∨
        ∃ type written, f.type = some type ∧ k.source.tree.declaredType? q = some written ∧
          written ≠ type ∧ k.supplyParameter p f name =
            { p with plan := p.plan ++ [.retype q type], parameter := some (.existing q) })) ∨
      k.existing? name = none ∧ k.supplyParameter p f name =
        { p with
          plan := p.plan ++ [.addParameter k.list p.parameter name f.type]
          parameter := some (.pending p.plan.insertions) } := by
  unfold supplyParameter
  cases hq : k.existing? name with
  | none => exact .inr ⟨rfl, rfl⟩
  | some q =>
      refine .inl ⟨q, rfl, ?_⟩
      cases htype : f.type with
      | none => exact .inl ⟨by simp, rfl⟩
      | some type =>
          cases hwritten : k.source.tree.declaredType? q with
          | none => exact .inl ⟨by simp, by simp [hwritten]⟩
          | some written =>
              by_cases heq : written = type
              · exact .inl ⟨by simp [heq], by simp [hwritten, heq]⟩
              · exact .inr ⟨type, written, rfl, rfl, heq, by simp [hwritten, heq]⟩

theorem mem_supplyParameter :
    e ∈ (k.supplyParameter p f name).plan ↔ e ∈ p.plan ∨
      (∃ q type written, k.existing? name = some q ∧ f.type = some type ∧
        k.source.tree.declaredType? q = some written ∧ written ≠ type ∧ e = .retype q type) ∨
      k.existing? name = none ∧ e = .addParameter k.list p.parameter name f.type := by
  rcases k.supplyParameter_cases p f name with
    ⟨q, hq, ⟨hsame, heq⟩ | ⟨type, written, htype, hwritten, hne, heq⟩⟩ | ⟨hq, heq⟩
  · suffices ∀ type, f.type = some type → ∀ written,
        k.source.tree.declaredType? q = some written → ¬ written = type → e = .retype q type →
          e ∈ p.plan by simpa [heq, hq]
    exact fun type htype written hwritten hne => absurd (hsame type written htype hwritten) hne
  · simp [heq, hq, htype, hwritten, hne]
  · simp [heq, hq]

theorem mem_planField :
    e ∈ (k.planField p f).plan ↔ e ∈ p.plan ∨ ∃ name, f.name = some name ∧
      k.state.get? f = none ∧ ((∃ q type written, k.existing? name = some q ∧ f.type = some type ∧
        k.source.tree.declaredType? q = some written ∧ written ≠ type ∧ e = .retype q type) ∨
      (k.existing? name = none ∧ e = .addParameter k.list p.parameter name f.type) ∨
      e = .addAssignment k.body p.statement k.source.framework.attrsMember name) := by
  have hstatement (name : String) : (k.supplyParameter p f name).statement = p.statement := by
    unfold supplyParameter
    cases k.existing? name <;> rfl
  unfold planField
  cases hname : f.name with
  | none => simp
  | some name =>
      cases hget : k.state.get? f with
      | some a => simp [passField]
      | none =>
          simp only [supplyStatement, Plan.push, List.mem_append, mem_supplyParameter, hstatement,
            List.mem_singleton, Option.some.injEq, exists_eq_left', true_and, or_assoc]

theorem plan_subset_planField (p : Progress) (f : Field) : p.plan ⊆ (k.planField p f).plan :=
  fun _ he => mem_planField.mpr (.inl he)

theorem plan_subset_foldl (fields : List Field) (p : Progress) :
    p.plan ⊆ (fields.foldl k.planField p).plan := by
  induction fields generalizing p with
  | nil => exact List.Subset.refl _
  | cons f fields ih => exact List.Subset.trans (plan_subset_planField p f) (ih _)

/-- Each field is planned for at some point. -/
theorem exists_planField_subset (hf : f ∈ k.fields) : ∃ p, (k.planField p f).plan ⊆ k.front := by
  obtain ⟨before, after, hfields⟩ := List.append_of_mem hf
  unfold front
  rw [hfields, List.foldl_append, List.foldl_cons]
  exact ⟨_, plan_subset_foldl after _⟩

/-- A field that is not assigned gets a statement. -/
theorem exists_statement_mem_front (hf : f ∈ k.fields) (hname : f.name = some name)
    (hmissing : k.state.get? f = none) :
    ∃ after, .addAssignment k.body after k.source.framework.attrsMember name ∈ k.front := by
  obtain ⟨p, hp⟩ := exists_planField_subset hf
  exact ⟨p.statement, hp (mem_planField.mpr (.inr ⟨name, hname, hmissing, .inr (.inr rfl)⟩))⟩

/-- A parameter that has the name of a field which is not assigned gets its type. -/
theorem retype_mem_front {q : NodeId} {type written : TypeExpr} (hf : f ∈ k.fields)
    (hname : f.name = some name) (hmissing : k.state.get? f = none) (hq : k.existing? name = some q)
    (htype : f.type = some type) (hwritten : k.source.tree.declaredType? q = some written)
    (hne : written ≠ type) : .retype q type ∈ k.front := by
  obtain ⟨p, hp⟩ := exists_planField_subset hf
  exact hp (mem_planField.mpr (.inr ⟨name, hname, hmissing,
    .inl ⟨q, type, written, hq, htype, hwritten, hne, rfl⟩⟩))

theorem mem_retypeOutdated : e ∈ k.retypeOutdated ↔
    ∃ o ∈ (k.source.gaps k.state k.fields).outdated, o.parameter ∈ k.parameters ∧
      ∃ type, o.field.type = some type ∧ e = .retype o.parameter type := by
  rw [retypeOutdated, List.mem_filterMap]
  refine exists_congr fun o => and_congr_right fun _ => ?_
  cases o.field.type with
  | none => simp
  | some type => by_cases hp : o.parameter ∈ k.parameters <;> simp [hp, eq_comm]

/-- So does a parameter that is stored in a field of another type. -/
theorem outdated_mem_front {o : Mismatch} {type : TypeExpr}
    (ho : o ∈ (k.source.gaps k.state k.fields).outdated) (hp : o.parameter ∈ k.parameters)
    (htype : o.field.type = some type) : .retype o.parameter type ∈ k.front :=
  plan_subset_foldl k.fields _
    (List.mem_append_left _ (mem_retypeOutdated.mpr ⟨o, ho, hp, type, htype, rfl⟩))

theorem wants_planField (hp : ∀ e ∈ p.plan, k.Wants e) (hf : f ∈ k.fields) :
    ∀ e ∈ (k.planField p f).plan, k.Wants e := by
  intro e he
  rcases mem_planField.mp he with he | ⟨name, hname, hmissing, hcases⟩
  · exact hp e he
  · rcases hcases with ⟨q, type, written, hq, htype, hwritten, hne, rfl⟩ | ⟨hnone, rfl⟩ | rfl
    · exact .retype hf hname hmissing hq htype hwritten hne
    · exact .parameter hf hname hmissing hnone
    · exact .statement hf hname hmissing

/-- Going through the fields: what holds at the start with all fields to come, and is kept from
field to field, holds at the end. -/
theorem foldl_planField {motive : Progress → List Field → Prop} (hrename : k.renameHandler = [])
    (hstart : motive { plan := k.retypeOutdated } k.fields)
    (hstep : ∀ p f rest, (∀ e ∈ (k.planField p f).plan, k.Wants e) → f ∈ k.fields →
      motive p (f :: rest) → motive (k.planField p f) rest) :
    motive (k.fields.foldl k.planField { plan := k.retypeOutdated ++ k.renameHandler }) [] ∧
      ∀ e ∈ k.front, k.Wants e := by
  have hfold {fields : List Field} {p : Progress} (hfields : ∀ f ∈ fields, f ∈ k.fields)
      (hp : ∀ e ∈ p.plan, k.Wants e) (hm : motive p fields) :
      motive (fields.foldl k.planField p) [] ∧
        ∀ e ∈ (fields.foldl k.planField p).plan, k.Wants e := by
    induction fields generalizing p with
    | nil => exact ⟨hm, hp⟩
    | cons f fields ih =>
        rw [List.forall_mem_cons] at hfields
        have hnext := wants_planField hp hfields.1
        exact ih hfields.2 hnext (hstep p f fields hnext hfields.1 hm)
  unfold front
  rw [hrename, List.append_nil]
  refine hfold (fun _ hf => hf) (fun e he => ?_) hstart
  obtain ⟨o, ho, hp, type, htype, rfl⟩ := mem_retypeOutdated.mp he
  exact .outdated ho hp htype

/-- **All edits of the first stage are wanted**, as long as the children parameter keeps
its name. -/
theorem wants_front (hrename : k.renameHandler = []) : ∀ e ∈ k.front, k.Wants e :=
  (foldl_planField (motive := fun _ _ => True) hrename trivial fun _ _ _ _ _ _ => trivial).2

/-- Wanted edits give types to parameters of the function, and insert in its list and its block. -/
theorem Wants.supplies (he : k.Wants e)
    (hp : ∀ p ∈ k.parameters, p ∈ k.source.tree.children k.list) :
    e.Supplies k.source.tree k.list k.body := by
  cases he with
  | outdated _ hmem _ => exact hp _ hmem
  | retype _ _ _ hq _ _ _ => exact hp _ (List.mem_of_find?_eq_some hq)
  | parameter _ _ _ _ => rfl
  | statement _ _ _ => rfl

end SyncTask

/-! ## What the stages leave -/

namespace Builder

/-- The body of a builder function is a construction of its component. -/
theorem ofCall?_of_ofFunction? {s : Source} {function call : NodeId} {b : Builder}
    (hb : ofFunction? s function = some b) (hcall : s.tree.functionBody? b.function = some call) :
    Construction.ofCall? s call = some { component := b.component, call } := by
  simp only [ofFunction?, guard, Option.bind_eq_bind, Option.bind_eq_some_iff, Option.pure_def,
    Option.some.injEq] at hb
  obtain ⟨_, -, call', hcall', c, hc, rfl⟩ := hb
  obtain rfl : call = call' := Option.some.inj (hcall.symm.trans hcall')
  rw [hc, ← (Construction.spec_of_ofCall? hc).1]

/-- A task for a builder function with a straight lambda, in which the children parameter does not
have the name of a field. -/
structure StraightTask (b : Builder) (fw : Framework) (t : Tree) (k : SyncTask)
    (call lambda : NodeId) (props : TypeExpr) : Prop where
  wellFormed : t.WellFormed
  task_eq : SyncTask.of { tree := t, framework := fw } b = .ok k
  source_eq : k.source = { tree := t, framework := fw }
  parts : b.Parts t k.list call lambda k.body
  parameters_eq : k.parameters = t.parameters b.function
  ofCall?_eq : Construction.ofCall? { tree := t, framework := fw } call =
    some { component := b.component, call }
  straight : ({ component := b.component, call } : Construction).Straight
    { tree := t, framework := fw } lambda k.body props k.fields
  state?_eq : ({ component := b.component, call } : Construction).state?
    { tree := t, framework := fw } = some k.state
  handler : ∀ p, k.handler? = some p → ∀ name, t.name? p = some name →
    Field.taken k.fields name = false

theorem exists_straightTask {b : Builder} {fw : Framework} {t : Tree} {k : SyncTask}
    {function : NodeId} (ht : t.WellFormed)
    (hb : ofFunction? { tree := t, framework := fw } function = some b)
    (hk : SyncTask.of { tree := t, framework := fw } b = .ok k)
    (hnodup : (k.fields.filterMap (·.name)).Nodup)
    (hhandler : ∀ p, k.handler? = some p → ∀ name, t.name? p = some name →
      Field.taken k.fields name = false)
    (hattrs : ({ tree := t, framework := fw } : Source).lexical? k.body fw.attrsMember = none)
    (hline : t.Straight fw.attrsMember k.body) :
    ∃ call lambda props, b.StraightTask fw t k call lambda props := by
  obtain ⟨call, lambda, schema, hparts, hsource, hschema, hfields, hstate, hparameters⟩ :=
    SyncTask.of_eq_ok hk
  have hc := ofCall?_of_ofFunction? hb hparts.call_eq
  have hfields? : ({ component := b.component, call } : Construction).fields?
      { tree := t, framework := fw } = some k.fields := by
    rw [Construction.fields?, hschema, hfields]
    rfl
  obtain ⟨props, hstraight⟩ := Construction.exists_straight ht rfl hc hfields? hnodup
    hparts.lambda_eq hparts.body_eq hattrs hline
  exact ⟨call, lambda, props, ht, hk, hsource, hparts, hparameters, hc, hstraight, hstate, hhandler⟩

namespace StraightTask

variable {b : Builder} {fw : Framework} {t : Tree} {k : SyncTask} {call lambda : NodeId}
  {props : TypeExpr} (h : b.StraightTask fw t k call lambda props) {f : Field} {name : String}

include h

theorem tree_eq : k.source.tree = t := by rw [h.source_eq]

theorem attrsMember_eq : k.source.framework.attrsMember = fw.attrsMember := by rw [h.source_eq]

theorem mem_parameters {p : NodeId} (hp : p ∈ k.parameters) :
    p ∈ t.children k.list ∧ (t.kind p).isParameter = true := by
  rw [h.parameters_eq, Tree.parameters, h.parts.list_eq] at hp
  exact List.mem_filter.mp hp

theorem renameHandler_eq_nil : k.renameHandler = [] :=
  SyncTask.renameHandler_eq_nil_iff.mpr fun p hp name hname =>
    h.handler p hp name (h.tree_eq ▸ hname)

theorem supplies {plan : Plan} (hplan : ∀ e ∈ plan, k.Wants e) :
    ∀ e ∈ plan, e.Supplies t k.list k.body := by
  intro e he
  rw [← h.tree_eq]
  refine (hplan e he).supplies fun p hp => ?_
  rw [h.tree_eq]
  exact (h.mem_parameters hp).1

theorem exists_store (hf : f ∈ k.fields) (hname : f.name = some name) {a : Assignment}
    (ha : k.state.get? f = some a) :
    ∃ e ∈ t.significant k.body, t.storedMember? fw.attrsMember e = some name ∧
      a = ({ tree := t, framework := fw } : Source).assignmentAt e :=
  h.straight.exists_of_get?_eq_some h.wellFormed h.state?_eq hf hname ha

theorem get?_eq_none_iff (hf : f ∈ k.fields) (hname : f.name = some name) :
    k.state.get? f = none ↔
      ∀ e ∈ t.significant k.body, t.storedMember? fw.attrsMember e ≠ some name :=
  h.straight.get?_eq_none_iff h.wellFormed h.state?_eq hf hname

/-- What is removed are the statements that write no field. -/
theorem mem_strayWrites_iff {n : NodeId} : n ∈ k.strayWrites ↔
    n ∈ t.significant k.body ∧ ∃ name, t.storedMember? fw.attrsMember n = some name ∧
      Field.named? k.fields name = none := by
  rw [SyncTask.mem_strayWrites_iff (h.tree_eq ▸ h.wellFormed), h.tree_eq,
    h.straight.unknown_iff h.wellFormed h.state?_eq]
  exact and_iff_left_of_imp fun ⟨hn, _⟩ =>
    h.wellFormed.inside_of_child (Tree.mem_children_of_significant hn)

/-- The parameter that a field finds is the first one of its name. -/
theorem existing?_eq (hname : Field.taken k.fields name = true) :
    k.existing? name =
      ({ tree := t, framework := fw } : Source).firstNamed? name (t.parameters b.function) := by
  rw [SyncTask.existing?, h.parameters_eq, h.tree_eq, Source.firstNamed?]
  refine List.find?_congr fun p _ => ?_
  by_cases hp : t.name? p = some name
  · have hne : some p ≠ k.handler? := fun heq => by
      rw [h.handler p heq.symm name hp] at hname
      cases hname
    simp [hp, hne]
  · simp [hp]

end StraightTask

/-- What the stages of a synchronisation leave: the first one the tree `w`, the removal of
statements the tree `u`, and that of parameters the tree `v`. -/
structure Stages (b : Builder) (fw : Framework) (t : Tree) (k : SyncTask) (gone : List NodeId)
    (w u v : Tree) : Prop where
  outcome_eq : w = (Edit.outcome t k.front).2
  edited_first : t.Edited [k.list, k.body] w
  supplied : Edit.Supplied t k.list k.body k.front w
  thinned : w.Changed k.body u
  children_body : u.children k.body = (w.children k.body).filter (· ∉ gone)
  stray : ∀ n ∈ k.strayWrites, n ∈ gone
  gone_cases : ∀ g ∈ gone, g ∈ k.strayWrites ∨ (w.kind g).isBlank = true
  edited_second : t.Edited [k.list, k.body] u
  dropped : u.Dropped k.list (({ tree := u, framework := fw } : Source).unused b.function k.body) v
  edited_last : t.Edited [k.list, k.body] v

variable {b : Builder} {fw : Framework} {t : Tree} {k : SyncTask}

/-- **The stages of a run** for a builder function with a straight lambda. -/
theorem StraightTask.exists_stages {call lambda : NodeId} {props : TypeExpr}
    (h : b.StraightTask fw t k call lambda props) {n : Nat} {v : Tree}
    (hrun : Change.run (b.synchronize fw) t = (.ok n, v)) :
    ∃ gone w u, Stages b fw t k gone w u v := by
  have ht := h.wellFormed
  have hsupplies := h.supplies (SyncTask.wants_front h.renameHandler_eq_nil)
  have hsupplied := Edit.supplied_outcome h.parts ht hsupplies
  have hstray : ∀ n ∈ k.strayWrites, n ∈ (Edit.outcome t k.front).2.children k.body := fun n hn =>
    hsupplied.statements.subset
      (Tree.mem_children_of_significant (h.mem_strayWrites_iff.mp hn).1)
  obtain ⟨gone, hthinned, hchildren, hstrays, hgone⟩ :=
    Tree.exists_gone hsupplied.kept.wellFormed hstray
  -- the second stage ends where the plan does
  have hu : k.strayWrites.foldl Tree.dropStatement (Edit.outcome t k.front).2 =
      ((Edit.performAll [] k.plan).run t).2 := by
    have hperform := Edit.performAll_eq k.plan ([], t)
    rw [hperform, SyncTask.plan_eq, List.foldl_append, Edit.foldl_step_dropStatement]
    rfl
  have hedited := edited_plan ht h.task_eq
  rw [← hu] at hedited
  have hrun' := run_synchronize ht h.task_eq hu rfl
  obtain rfl := (Prod.mk.inj (hrun'.symm.trans hrun)).2
  have hparts' := h.parts.edited ht hedited
  refine ⟨gone, _, _, rfl, Edit.edited_outcome h.parts ht hsupplies, hsupplied, hthinned, hchildren,
    hstrays, hgone, hedited, ?_, ?_⟩
  · exact Tree.dropped_foldl_detach hedited.wellFormed hparts'.kind_list fun p hp =>
      hparts'.parent_parameter hedited.wellFormed (List.mem_filter.mp hp).1
  · exact (edited_of_run ht h.task_eq hrun).1

namespace Stages

variable {gone : List NodeId} {w u v : Tree} {call lambda : NodeId}
  (hs : Stages b fw t k gone w u v) (hparts : b.Parts t k.list call lambda k.body)
  (ht : t.WellFormed)

include hs

theorem changed_list : u.Changed k.list v where
  wellFormed := hs.edited_last.wellFormed
  size_le := Nat.le_of_eq hs.dropped.size_eq.symm
  kind_eq _ := hs.dropped.kind_eq _
  children_eq _ := hs.dropped.children_eq

include hparts ht

/-- The statements at the end: those of the first stage that were not removed. -/
theorem children_body_eq : v.children k.body = (w.children k.body).filter (· ∉ gone) := by
  rw [hs.dropped.children_eq (hparts.list_ne_body ht).symm, hs.children_body]

/-- The parameters at the end: those of the first stage that have a use. -/
theorem children_list_eq : v.children k.list = (w.children k.list).filter
    (· ∉ ({ tree := u, framework := fw } : Source).unused b.function k.body) := by
  have hlt := ((hparts.edited ht hs.edited_first).list_inside_function
    hs.edited_first.wellFormed).lt_size
  rw [hs.dropped.children_list, hs.thinned.children_eq hlt (hparts.list_ne_body ht)]

theorem kept : w.Kept k.list k.body u ∧ u.Kept k.list k.body v :=
  ⟨(hparts.edited ht hs.edited_first).kept_of_changed hs.edited_first.wellFormed hs.thinned
      (.inr rfl),
    (hparts.edited ht hs.edited_second).kept_of_changed hs.edited_second.wellFormed
      hs.changed_list (.inl rfl)⟩

/-- What is removed does not touch the statements that stay. -/
theorem sameBelow {x : NodeId} (hx : x ∈ v.children k.body) : w.SameBelow v x := by
  have hxw := hx
  rw [hs.children_body_eq hparts ht] at hxw
  have hxu : x ∈ u.children k.body := by
    rwa [← hs.dropped.children_eq (hparts.list_ne_body ht).symm]
  obtain ⟨hw, hu⟩ := hs.kept hparts ht
  exact (hw.statement x (List.mem_filter.mp hxw).1).trans hs.edited_first.wellFormed
    hs.edited_second.wellFormed (hu.statement x hxu)

theorem mem_of_parameter {p : NodeId} (hp : p ∈ v.children k.list) :
    p ∈ u.children k.list ∧ p ∈ w.children k.list := by
  have hpu := hp
  rw [hs.dropped.children_list] at hpu
  rw [hs.children_list_eq hparts ht] at hp
  exact ⟨(List.mem_filter.mp hpu).1, (List.mem_filter.mp hp).1⟩

theorem kind_parameter {p : NodeId} (hp : p ∈ v.children k.list) : v.kind p = w.kind p := by
  obtain ⟨hpu, hpw⟩ := hs.mem_of_parameter hparts ht hp
  rw [hs.dropped.kind_eq, hs.thinned.kind_eq]
  exact (hs.edited_first.wellFormed.inside_of_child hpw).lt_size

theorem writtenType?_parameter {p : NodeId} (hp : p ∈ v.children k.list) :
    v.writtenType? p = w.writtenType? p := by
  obtain ⟨hpu, hpw⟩ := hs.mem_of_parameter hparts ht hp
  rw [(hparts.edited ht hs.edited_second).writtenType?_of_changed hs.edited_second.wellFormed
      hs.changed_list (.inl rfl) hpu,
    (hparts.edited ht hs.edited_first).writtenType?_of_changed hs.edited_first.wellFormed hs.thinned
      (.inr rfl) hpw]

end Stages

end Builder

end ComponentAudit
