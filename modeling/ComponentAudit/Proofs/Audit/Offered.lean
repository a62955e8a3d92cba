import ComponentAudit.Audit

set_option autoImplicit false

/-! # When a fix is offered

The audits read off the file what each fix needs: a fix for a member is offered where a schema of
the file has that member, one for a component where the file declares it, one for a builder function
where a construction in the file is its body. `Source.Offers` lists these conditions, one case for
each kind of finding with a fix.

Main statement: `Source.offers_of_mem`.
-/

namespace ComponentAudit

/-! ## What a log holds -/

namespace Log

variable {log : Log} {d e : Diagnostic}

theorem mem_addNew (h : d ∈ log.addNew e) : d ∈ log ∨ d = e := by
  unfold addNew add at h
  split at h
  · exact .inl h
  · exact (List.mem_append.mp h).imp_right List.mem_singleton.mp

theorem mem_addEachNew {ds : List Diagnostic} (h : d ∈ log.addEachNew ds) : d ∈ log ∨ d ∈ ds := by
  induction ds generalizing log with
  | nil => exact .inl h
  | cons e ds ih =>
      rcases ih h with h | h
      · rcases mem_addNew h with h | rfl
        · exact .inl h
        · exact .inr List.mem_cons_self
      · exact .inr (List.mem_cons_of_mem e h)

/-- What reports one after the other add, each adding only diagnostics of a class. -/
theorem mem_foldl {α : Type} {P : Diagnostic → Prop} {report : Log → α → Log} {xs : List α}
    (hreport : ∀ x ∈ xs, ∀ log, ∀ d ∈ report log x, d ∈ log ∨ P d)
    (h : d ∈ xs.foldl report log) : d ∈ log ∨ P d := by
  induction xs generalizing log with
  | nil => exact .inl h
  | cons x xs ih =>
      rcases ih (fun y hy => hreport y (List.mem_cons_of_mem x hy)) h with h | h
      · exact hreport x List.mem_cons_self log d h
      · exact .inr h

end Log

namespace Source

/-- The schemas that the file declares. -/
def schemas (s : Source) : List Schema :=
  s.tree.declarations.filterMap (Schema.of? s.tree s.framework)

/-- When the audits offer a fix. -/
inductive Offers (s : Source) : Fix → Prop
  | makeMutable {i : Schema} {m : NodeId} {decl : PropertyDecl} (hi : i ∈ s.schemas)
      (hm : m ∈ s.tree.members i.decl) (hkind : s.tree.kind m = .property decl)
      (hdecl : decl.mutable = false) : Offers s (.makeMutable m)
  | renameMember {i : Schema} {m : NodeId} (hi : i ∈ s.schemas)
      (hm : m ∈ s.tree.members i.decl) : Offers s (.rename m none)
  | removeMember {i : Schema} {m : NodeId} (hi : i ∈ s.schemas)
      (hm : m ∈ s.tree.members i.decl) : Offers s (.removeDeclaration m)
  | removeSchema {i : Schema} (hi : i ∈ s.schemas) : Offers s (.removeSchema i.decl i.role)
  | removeInitializer {c : Component} {i : Initializer}
      (hc : c ∈ Component.all s.tree s.framework) (hi : i ∈ c.initializers s) :
      Offers s (.removeDeclaration i.function)
  | takeProps {c : Component} (hc : c ∈ Component.all s.tree s.framework)
      (hprops : c.passesProps s.tree = false) : Offers s (.takeProps c.decl)
  | regenerate {c : Component} (hc : c ∈ Component.all s.tree s.framework)
      (hbuilder : c.builder? s = none) : Offers s (.regenerate c.decl)
  | renameBuilder {call : NodeId} {c : Construction} {b : Builder} {name : String}
      (hcall : call ∈ s.tree.descendants s.tree.root) (hc : Construction.ofCall? s call = some c)
      (hb : c.builder? s = some b) (hname : s.tree.name? b.function ≠ some name) :
      Offers s (.rename b.function (some name))
  | synchronize {call : NodeId} {c : Construction} {b : Builder} {i : Schema}
      (hcall : call ∈ s.tree.descendants s.tree.root) (hc : Construction.ofCall? s call = some c)
      (hb : c.builder? s = some b) (hschema : c.component.schema? s .props = some i) :
      Offers s (.synchronize b.function)

/-- Whether all fixes of a diagnostic are offered for a reason. -/
def Grounded (s : Source) (d : Diagnostic) : Prop := ∀ x ∈ d.fixes, s.Offers x

variable {s : Source}

theorem grounded_of_nil {d : Diagnostic} (h : d.fixes = []) : s.Grounded d := by
  intro x hx
  rw [h] at hx
  cases hx

theorem grounded_of_one {d : Diagnostic} {fix : Fix} (h : d.fixes = [fix]) (hfix : s.Offers fix) :
    s.Grounded d := by
  intro x hx
  rw [h] at hx
  rw [List.mem_singleton.mp hx]
  exact hfix

/-! ## Schemas -/

theorem grounded_of_judge {i : Schema} (hi : i ∈ s.schemas) {m : NodeId}
    (hm : m ∈ s.tree.members i.decl) {d : Diagnostic} (h : i.judge s m = .refused d) :
    s.Grounded d := by
  rcases i.judge_cases s m with hj | hj | ⟨decl, hkind, ⟨hmutable, hj⟩ | ⟨name, hj⟩ | ⟨-, hj⟩⟩
  · cases hj.symm.trans h
  · cases hj.symm.trans h
    exact grounded_of_one rfl (.removeMember hi hm)
  · cases hj.symm.trans h
    exact grounded_of_one rfl (.makeMutable hi hm hkind hmutable)
  · -- a reserved name comes with two fixes
    cases hj.symm.trans h
    intro x hx
    rcases List.mem_cons.mp hx with rfl | hx
    · exact .renameMember hi hm
    · rw [List.mem_singleton.mp hx]
      exact .removeMember hi hm
  · cases hj.symm.trans h

theorem grounded_of_auditSchemas {log : Log} {d : Diagnostic} (h : d ∈ s.auditSchemas log) :
    d ∈ log ∨ s.Grounded d := by
  unfold auditSchemas at h
  refine Log.mem_foldl (fun i hi log d hd => ?_) h
  replace hi : i ∈ s.schemas := hi
  unfold Schema.audit at hd
  have hrefused (h : d ∈ (i.refusals s).foldl Log.add log) : d ∈ log ∨ s.Grounded d := by
    refine Log.mem_foldl (fun e he log d hd => ?_) h
    rcases List.mem_append.mp hd with hd | hd
    · exact .inl hd
    · rw [List.mem_singleton.mp hd]
      obtain ⟨v, hv, hrefused⟩ := List.mem_filterMap.mp he
      obtain ⟨m, hm, rfl⟩ := List.mem_map.mp hv
      split at hrefused
      · next e' hjudge =>
        cases hrefused
        exact .inr (grounded_of_judge hi hm hjudge)
      · cases hrefused
  split at hd
  · rcases Log.mem_addNew hd with hd | rfl
    · exact hrefused hd
    · exact .inr (grounded_of_one rfl (.removeSchema hi))
  · exact hrefused hd

/-! ## Components -/

theorem grounded_of_state {c : Component} (hc : c ∈ Component.all s.tree s.framework)
    {d : Diagnostic} (h : d ∈ c.stateDiagnostics s) : s.Grounded d := by
  unfold Component.stateDiagnostics at h
  rcases List.mem_append.mp h with h | h
  · rcases List.mem_append.mp h with h | h
    · rcases List.mem_append.mp h with h | h
      · -- initialisers with and without props
        unfold bothKinds at h
        split at h
        · obtain ⟨i, hi, rfl⟩ := List.mem_map.mp h
          exact grounded_of_one rfl (.removeInitializer hc hi)
        · cases h
      · unfold Component.uninitialized at h
        split at h
        · rw [List.mem_singleton.mp h]
          exact grounded_of_nil rfl
        · cases h
    · -- initialisers that take what is not handed on
      unfold Component.withheldProps at h
      split at h
      · cases h
      · next hprops =>
        obtain ⟨p, -, rfl⟩ := List.mem_map.mp h
        exact grounded_of_one rfl (.takeProps hc (by simpa using hprops))
  · obtain ⟨i, -, h⟩ := List.mem_flatMap.mp h
    unfold Component.leftOut at h
    dsimp only at h
    split at h
    · cases h
    · rcases List.mem_append.mp h with h | h
      · obtain ⟨f, -, rfl⟩ := List.mem_map.mp h
        exact grounded_of_nil rfl
      · rw [List.mem_singleton.mp h]
        exact grounded_of_nil rfl

theorem grounded_of_auditComponents {log : Log} {d : Diagnostic}
    (h : d ∈ s.auditComponents log) : d ∈ log ∨ s.Grounded d := by
  unfold auditComponents at h
  refine Log.mem_foldl (fun c hc log d hd => ?_) h
  refine (Log.mem_addEachNew hd).imp_right fun hd => ?_
  rcases List.mem_append.mp hd with hd | hd
  · rcases List.mem_append.mp hd with hd | hd
    · -- props that are not handed on
      unfold Component.propsDiagnostics at hd
      split at hd
      · next hprops =>
        rw [List.mem_singleton.mp hd]
        have hpasses := (Bool.and_eq_true_iff.mp hprops).2
        exact grounded_of_one rfl (.takeProps hc (by simpa using hpasses))
      · cases hd
    · exact grounded_of_state hc hd
  · -- no builder function
    unfold Component.builderDiagnostics at hd
    split at hd
    · cases hd
    · next hbuilder =>
      obtain ⟨place, -, rfl⟩ := List.mem_map.mp hd
      exact grounded_of_one rfl (.regenerate hc (by simpa using hbuilder))

/-! ## Constructions -/

theorem grounded_of_builder {call : NodeId} {c : Construction} {b : Builder} {i : Schema} {g : Gaps}
    (hcall : call ∈ s.tree.descendants s.tree.root) (hc : Construction.ofCall? s call = some c)
    (hb : c.builder? s = some b) (hschema : c.component.schema? s .props = some i)
    {d : Diagnostic} (h : d ∈ c.builderDiagnostics s g b) : s.Grounded d := by
  have hsync : s.Offers (.synchronize b.function) := .synchronize hcall hc hb hschema
  unfold Construction.builderDiagnostics at h
  rcases List.mem_append.mp h with h | h
  · rcases List.mem_append.mp h with h | h
    · -- the name of the function
      unfold Construction.nameDiagnostics at h
      split at h
      · split at h
        · cases h
        · next hname =>
          rw [List.mem_singleton.mp h]
          exact grounded_of_one rfl (.renameBuilder hcall hc hb hname)
      · cases h
    · rcases List.mem_append.mp h with h | h
      · obtain ⟨f, -, rfl⟩ := List.mem_map.mp h
        exact grounded_of_one rfl hsync
      · obtain ⟨o, -, rfl⟩ := List.mem_map.mp h
        exact grounded_of_one rfl hsync
  · split at h
    · rcases List.mem_append.mp h with h | h
      · rcases List.mem_cons.mp h with rfl | h
        · exact grounded_of_one rfl hsync
        · rw [List.mem_singleton.mp h]
          exact grounded_of_one rfl hsync
      · split at h
        · cases h
        · obtain ⟨j, -, rfl⟩ := List.mem_map.mp h
          exact grounded_of_one rfl hsync
    · cases h

theorem grounded_of_auditConstructions {log : Log} {d : Diagnostic}
    (h : d ∈ s.auditConstructions log) : d ∈ log ∨ s.Grounded d := by
  unfold auditConstructions at h
  refine Log.mem_foldl (fun c hc log d hd => ?_) h
  obtain ⟨call, hcall, hof⟩ := List.mem_filterMap.mp hc
  unfold Construction.audit at hd
  split at hd
  · exact .inl hd
  · next g hgaps =>
    split at hd
    · next b hb =>
      refine (Log.mem_addEachNew hd).imp_right fun hd => ?_
      obtain ⟨fields, hfields, -⟩ := Option.map_eq_some_iff.mp hgaps
      obtain ⟨i, hschema, -⟩ := Option.map_eq_some_iff.mp hfields
      exact grounded_of_builder hcall hof hb hschema hd
    · -- outside builder functions nothing is offered
      refine (Log.mem_addEachNew hd).imp_right fun hd => ?_
      unfold Construction.callDiagnostics at hd
      split at hd
      · rw [List.mem_singleton.mp hd]
        exact grounded_of_nil rfl
      · cases hd

/-- **Every fix is offered for a reason.** -/
theorem offers_of_mem {d : Diagnostic} {x : Fix} (hd : d ∈ s.auditAll) (hx : x ∈ d.fixes) :
    s.Offers x := by
  have hgrounded : d ∈ ([] : Log) ∨ s.Grounded d := by
    unfold auditAll auditWith at hd
    refine Log.mem_foldl (fun a _ log d hd => ?_) hd
    cases a with
    | schemas => exact grounded_of_auditSchemas hd
    | components => exact grounded_of_auditComponents hd
    | constructions => exact grounded_of_auditConstructions hd
  rcases hgrounded with hd | hd
  · cases hd
  · exact hd x hx

end Source

end ComponentAudit
