import ComponentAudit.Proofs.Audit.Applied
import ComponentAudit.Proofs.Edit.Beside

set_option autoImplicit false

/-! # When a construction is reported

A construction is summed up by one warning, at the builder function whose body it is or else at the
name that it calls. The audit works out anew whether there is something to say: it passes over
reserved names, and it leaves out what stands in the log already. Neither makes a difference.
Reserved names never become fields of props, no two constructions share a place, and a detail with
the wording of a summary stands at an interface, where no construction is summed up.

Main statement: `Construction.reported_iff_outdated`.
-/

namespace ComponentAudit

/-! ## Summaries and details -/

namespace Finding

/-- Whether a finding sums up a construction. -/
def sumsUp : Finding → Bool
  | incomplete _ | outdatedParameterTypes | outdatedAssignments | childrenNotInitialized => true
  | _ => false

/-- Whether a finding is about one part of what a construction involves. -/
def isDetail : Finding → Bool
  | misnamedBuilder _ | fieldNotInitialized | outdatedParameterType | outdatedBuilder => true
  | _ => false

/-- The second letter of a message shows before any name in it. -/
theorem letter_append {a b : String} {x : Char} (h : a.toList[1]? = some x) :
    (a ++ b).toList[1]? = some x := by
  rw [String.toList_append, List.getElem?_append_left (List.getElem?_eq_some_iff.mp h).1, h]

theorem letter_incomplete (name : String) : (incomplete name).message.toList[1]? = some 'l' :=
  letter_append (letter_append (by decide))

theorem letter_misnamedBuilder (name : String) :
    (misnamedBuilder name).message.toList[1]? = some 'o' :=
  letter_append (letter_append (by decide))

/-- No detail has the words of a summary. -/
theorem message_ne {f e : Finding} (hf : f.sumsUp = true) (he : e.isDetail = true) :
    f.message ≠ e.message := by
  intro h
  have hletter : f.message.toList[1]? = e.message.toList[1]? := by rw [h]
  cases f with
  | incomplete name =>
      rw [letter_incomplete] at hletter
      cases e with
      | misnamedBuilder expected =>
          rw [letter_misnamedBuilder] at hletter
          exact absurd hletter (by decide)
      | fieldNotInitialized | outdatedParameterType | outdatedBuilder =>
          exact absurd hletter (by decide)
      | _ => cases he
  | outdatedParameterTypes | outdatedAssignments | childrenNotInitialized =>
      cases e with
      | misnamedBuilder expected =>
          rw [letter_misnamedBuilder] at hletter
          exact absurd hletter (by decide)
      | fieldNotInitialized | outdatedParameterType | outdatedBuilder =>
          exact absurd h (by decide)
      | _ => cases he
  | _ => cases hf

end Finding

theorem Gaps.sumsUp_of_finding? {g : Gaps} {fw : Framework} {name : String} {f : Finding}
    (h : g.finding? fw name = some f) : f.sumsUp = true := by
  unfold finding? at h
  split at h
  · cases h
    rfl
  · split at h
    · cases h
      rfl
    · split at h
      · cases h
        rfl
      · split at h
        · cases h
          rfl
        · cases h

/-! ## Reserved names -/

/-- A field of props has no name that the framework keeps for itself. -/
theorem Schema.not_reserved {i : Schema} {s : Source} (hrole : i.role = .props) {f : Field}
    (hf : f ∈ i.fields s) : f.name.any s.framework.isReserved = false := by
  obtain ⟨member, hfield⟩ := exists_judge hf
  exact (of_judge_eq_field hfield).2 hrole

namespace Construction

variable {s : Source} {c : Construction} {g : Gaps}

theorem reportable_eq_missing (h : c.gaps? s = some g) : g.reportable s.framework = g.missing := by
  obtain ⟨fields, hfields, rfl⟩ := Option.map_eq_some_iff.mp h
  obtain ⟨i, hi, rfl⟩ := Option.map_eq_some_iff.mp hfields
  have hrole : i.role = .props := Component.role_of_schema? hi
  refine List.filter_eq_self.mpr fun f hf => ?_
  have hmem := (List.mem_filter.mp hf).1
  simp [Schema.not_reserved hrole hmem]

/-- There is something to say of a construction unless it is up to date. -/
theorem finding?_eq_none_iff (h : c.gaps? s = some g) (name : String) :
    g.finding? s.framework name = none ↔ g.upToDate = true := by
  have hchildren : g.childrenNotSet = true := by
    obtain ⟨fields, -, rfl⟩ := Option.map_eq_some_iff.mp h
    rfl
  rw [Gaps.finding?, Gaps.upToDate, hchildren, reportable_eq_missing h]
  by_cases hmissing : g.missing.isEmpty
  · by_cases hunknown : g.unknown.isEmpty <;> by_cases houtdated : g.outdated.isEmpty <;>
      simp [hmissing, hunknown, houtdated]
  · simp [hmissing]

/-! ## Places -/

/-- Where a construction is summed up: at the builder function whose body it is, or else at what it
calls. -/
def site (c : Construction) (s : Source) : NodeId :=
  match c.builder? s with
  | some b => b.function
  | none => (s.tree.callee? c.call).getD c.call

theorem site_of_builder {b : Builder} (h : c.builder? s = some b) : c.site s = b.function := by
  rw [site, h]

/-- A construction calls a name. -/
theorem exists_callee {call : NodeId} (h : ofCall? s call = some c) :
    ∃ callee, s.tree.callee? c.call = some callee ∧ callee ∈ s.tree.children c.call ∧
      (s.tree.kind callee).isReference = true := by
  obtain ⟨rfl, hkind, -⟩ := spec_of_ofCall? h
  unfold ofCall? at h
  obtain ⟨_, hguard, -⟩ := Option.bind_eq_some_iff.mp h
  have hname := (Option.ite_none_right_eq_some.mp hguard).1
  obtain ⟨callee, hcallee, hname⟩ := Option.bind_eq_some_iff.mp hname
  refine ⟨callee, hcallee, ?_, ?_⟩
  · rw [Tree.callee?, if_pos hkind] at hcallee
    exact List.mem_of_head? hcallee
  · unfold Tree.referenceName? at hname
    cases hk : s.tree.kind callee <;> simp_all [Kind.referenceName?, Kind.isReference]

theorem site_of_none {call : NodeId} (h : ofCall? s call = some c) (hb : c.builder? s = none) :
    c.site s ∈ s.tree.children c.call ∧ (s.tree.kind (c.site s)).isReference = true := by
  obtain ⟨callee, hcallee, hmem, hreference⟩ := exists_callee h
  have hsite : c.site s = callee := by rw [site, hb, hcallee, Option.getD_some]
  rw [hsite]
  exact ⟨hmem, hreference⟩

theorem isFunction_builder {b : Builder} (h : c.builder? s = some b) :
    (s.tree.kind b.function).isFunction = true := by
  have hextends := (spec_of_builder? h).2.1
  unfold Source.extendsBuilder at hextends
  cases hk : s.tree.kind b.function <;> simp_all [Kind.receiver?, Kind.isFunction]

/-- No construction is summed up at an interface. -/
theorem isInterface_site {call : NodeId} (h : ofCall? s call = some c) :
    (s.tree.kind (c.site s)).isInterface = false := by
  cases hb : c.builder? s with
  | some b =>
      have hfunction := isFunction_builder hb
      rw [site_of_builder hb]
      cases hk : s.tree.kind b.function <;> simp_all [Kind.isFunction, Kind.isInterface]
  | none =>
      have hreference := (site_of_none h hb).2
      cases hk : s.tree.kind (c.site s) <;> simp_all [Kind.isReference, Kind.isInterface]

/-- Two constructions that are summed up at one place are the same. -/
theorem eq_of_site (ht : s.tree.WellFormed) {call call' : NodeId} {c' : Construction}
    (h : ofCall? s call = some c) (h' : ofCall? s call' = some c') (hsite : c.site s = c'.site s) :
    c = c' := by
  have hcall : c.call = c'.call := by
    cases hb : c.builder? s with
    | some b =>
        rw [site_of_builder hb] at hsite
        cases hb' : c'.builder? s with
        | some b' =>
            -- a function has one body
            rw [site_of_builder hb'] at hsite
            have hbody := (spec_of_builder? hb).2.2.1
            have hbody' := (spec_of_builder? hb').2.2.1
            rw [hsite, hbody'] at hbody
            exact (Option.some.inj hbody).symm
        | none =>
            have hfunction := isFunction_builder hb
            have hreference := (site_of_none h' hb').2
            rw [← hsite] at hreference
            cases hk : s.tree.kind b.function <;> simp_all [Kind.isFunction, Kind.isReference]
    | none =>
        obtain ⟨hmem, hreference⟩ := site_of_none h hb
        cases hb' : c'.builder? s with
        | some b' =>
            have hfunction := isFunction_builder hb'
            rw [hsite, site_of_builder hb'] at hreference
            cases hk : s.tree.kind b'.function <;> simp_all [Kind.isFunction, Kind.isReference]
        | none =>
            -- what is called hangs below one call
            have hmem' := (site_of_none h' hb').1
            rw [hsite] at hmem
            exact Option.some.inj ((ht.mem_children_iff.mp hmem).symm.trans
              (ht.mem_children_iff.mp hmem'))
  have heq : call = call' := by
    rw [← (spec_of_ofCall? h).1, ← (spec_of_ofCall? h').1, hcall]
  rw [heq] at h
  exact Option.some.inj (h.symm.trans h')

end Construction

/-! ## What the audit writes -/

namespace Log

variable {log : Log} {d e : Diagnostic}

theorem mem_addNew_of_mem (h : d ∈ log) : d ∈ log.addNew e := by
  unfold addNew
  split
  · exact h
  · exact List.mem_append_left _ h

theorem mem_addEachNew_of_mem {ds : List Diagnostic} (h : d ∈ log) : d ∈ log.addEachNew ds := by
  induction ds generalizing log with
  | nil => exact h
  | cons e ds ih => exact ih (mem_addNew_of_mem h)

/-- What is to be reported stands in the log afterwards, in the words of this report or of an
earlier one. -/
theorem exists_addEachNew {ds : List Diagnostic} (h : d ∈ ds) :
    ∃ e ∈ log.addEachNew ds, e.location = d.location ∧ e.message = d.message := by
  induction ds generalizing log with
  | nil => cases h
  | cons x ds ih =>
      rcases List.mem_cons.mp h with rfl | h
      · have hnew : ∃ e ∈ log.addNew d, e.location = d.location ∧ e.message = d.message := by
          unfold addNew
          split
          · next hany =>
            obtain ⟨e, he, hsame⟩ := List.any_eq_true.mp hany
            rw [Diagnostic.repeats, Bool.and_eq_true, beq_iff_eq, beq_iff_eq] at hsame
            exact ⟨e, he, hsame.1.symm, hsame.2.symm⟩
          · exact ⟨d, List.mem_append_right _ (List.mem_singleton_self d), rfl, rfl⟩
        obtain ⟨e, he, hsame⟩ := hnew
        have hmem : e ∈ (log.addNew d).addEachNew ds := mem_addEachNew_of_mem he
        exact ⟨e, hmem, hsame⟩
      · exact ih h

/-- Of reports one after the other, none of which takes anything back, each leaves its mark. -/
theorem exists_foldl {α : Type} {P : Diagnostic → Prop} {report : Log → α → Log} {xs : List α}
    (hkeep : ∀ (log : Log) x, ∀ d ∈ log, d ∈ report log x) {x : α} (hx : x ∈ xs)
    (hreport : ∀ log, ∃ d ∈ report log x, P d) : ∃ d ∈ xs.foldl report log, P d := by
  have hkeeps {ys : List α} {log : Log} {d : Diagnostic} (hd : d ∈ log) :
      d ∈ ys.foldl report log := by
    induction ys generalizing log with
    | nil => exact hd
    | cons y ys ih => exact ih (hkeep log y d hd)
  induction xs generalizing log with
  | nil => cases hx
  | cons y xs ih =>
      rcases List.mem_cons.mp hx with rfl | hx
      · obtain ⟨d, hd, hP⟩ := hreport log
        have hmem : d ∈ xs.foldl report (report log x) := hkeeps hd
        exact ⟨d, hmem, hP⟩
      · exact ih hx

end Log

namespace Construction

/-- The diagnostics that the audit of constructions may write. -/
inductive Says (s : Source) (d : Diagnostic) : Prop
  | summary {call : NodeId} {c : Construction} {g : Gaps} {f : Finding} {name : String}
      (hc : ofCall? s call = some c) (hgaps : c.gaps? s = some g)
      (hfinding : g.finding? s.framework name = some f) (hplace : d.location = c.site s)
      (hgrave : d.severity = .warning) : Says s d
  | detail {f : Finding} (hdetail : f.isDetail = true) (hmessage : d.message = f.message)
      (hgrave : d.severity = .weakWarning) : Says s d
  | schema (hplace : (s.tree.kind d.location).isInterface = true)
      (hgrave : d.severity = .weakWarning) : Says s d

variable {s : Source} {c : Construction} {g : Gaps} {d : Diagnostic}

theorem says_of_builder {call : NodeId} {b : Builder} (hc : ofCall? s call = some c)
    (hgaps : c.gaps? s = some g) (hb : c.builder? s = some b)
    (h : d ∈ c.builderDiagnostics s g b) : Says s d := by
  unfold builderDiagnostics at h
  dsimp only at h
  rcases List.mem_append.mp h with h | h
  · rcases List.mem_append.mp h with h | h
    · -- the name of the function
      unfold nameDiagnostics at h
      split at h
      · split at h
        · cases h
        · rw [List.mem_singleton.mp h]
          exact .detail (f := .misnamedBuilder _) rfl rfl rfl
      · cases h
    · rcases List.mem_append.mp h with h | h
      · obtain ⟨f, -, rfl⟩ := List.mem_map.mp h
        exact .detail (f := .fieldNotInitialized) rfl rfl rfl
      · obtain ⟨o, -, rfl⟩ := List.mem_map.mp h
        exact .detail (f := .outdatedParameterType) rfl rfl rfl
  · split at h
    · next finding hfinding =>
      rcases List.mem_append.mp h with h | h
      · rcases List.mem_cons.mp h with rfl | h
        · exact .summary hc hgaps hfinding (site_of_builder hb).symm rfl
        · rw [List.mem_singleton.mp h]
          exact .detail (f := .outdatedBuilder) rfl rfl rfl
      · split at h
        · cases h
        · obtain ⟨i, hi, rfl⟩ := List.mem_map.mp h
          have hschema := Component.schema?_spec (Option.mem_toList.mp hi)
          exact .schema hschema.2 rfl
    · cases h

theorem says_of_mem (h : d ∈ s.auditConstructions []) : Says s d := by
  have hsays : d ∈ ([] : Log) ∨ Says s d := by
    unfold Source.auditConstructions at h
    refine Log.mem_foldl (fun c hc log d hd => ?_) h
    obtain ⟨call, -, hof⟩ := List.mem_filterMap.mp hc
    unfold audit at hd
    split at hd
    · exact .inl hd
    · next g hgaps =>
      split at hd
      · next b hb =>
        exact (Log.mem_addEachNew hd).imp_right (says_of_builder hof hgaps hb)
      · next hb =>
        refine (Log.mem_addEachNew hd).imp_right fun hd => ?_
        unfold callDiagnostics at hd
        split at hd
        · next finding hfinding =>
          rw [List.mem_singleton.mp hd]
          exact .summary hof hgaps hfinding (by rw [site, hb]; rfl) rfl
        · cases hd
  rcases hsays with hd | hd
  · cases hd
  · exact hd

/-- A construction with a finding leaves a diagnostic with the words of the finding at its place. -/
theorem exists_of_finding? {call : NodeId} {f : Finding}
    (hcall : call ∈ s.tree.descendants s.tree.root) (hc : ofCall? s call = some c)
    (hgaps : c.gaps? s = some g)
    (hfinding : g.finding? s.framework (c.component.argumentName s.tree s.framework .props) =
      some f) :
    ∃ d ∈ s.auditConstructions [], d.location = c.site s ∧ d.message = f.message := by
  unfold Source.auditConstructions
  refine Log.exists_foldl ?_ (List.mem_filterMap.mpr ⟨call, hcall, hc⟩) fun log => ?_
  · intro log c d hd
    unfold audit
    split
    · exact hd
    · split <;> exact Log.mem_addEachNew_of_mem hd
  · unfold audit
    rw [hgaps]
    cases hb : c.builder? s with
    | some b =>
        have hmem : f.at b.function .warning [.synchronize b.function] ∈
            c.builderDiagnostics s g b := by
          simp [builderDiagnostics, hfinding]
        rw [site_of_builder hb]
        exact Log.exists_addEachNew hmem
    | none =>
        have hmem : f.at (c.site s) .warning [] ∈ c.callDiagnostics s g := by
          simp [callDiagnostics, hfinding, site, hb]
        exact Log.exists_addEachNew hmem

/-! ## Silence -/

/-- **A construction is reported exactly when it is not up to date.** The audit of constructions,
begun with an empty log, writes a warning at the builder function whose body the construction is, or
at the name that is called where there is no such function, if and only if a field is missing, a
write names no field, or a parameter has another type than its field. -/
theorem reported_iff_outdated {call : NodeId} (ht : s.tree.WellFormed)
    (hattached : s.tree.attached call = true) (hc : ofCall? s call = some c)
    (hgaps : c.gaps? s = some g) :
    (∃ d ∈ Audit.constructions.run s [], d.severity = .warning ∧ d.location = c.site s) ↔
      g.upToDate = false := by
  show (∃ d ∈ s.auditConstructions [], _) ↔ _
  constructor
  · rintro ⟨d, hd, hgrave, hplace⟩
    cases says_of_mem hd with
    | summary hc' hgaps' hfinding hplace' _ =>
        -- the warning is about this construction, since no other one has its place
        obtain rfl := eq_of_site ht hc hc' (hplace.symm.trans hplace')
        rw [hgaps] at hgaps'
        cases hgaps'
        by_contra hup
        rw [Bool.not_eq_false, ← finding?_eq_none_iff hgaps _, hfinding] at hup
        cases hup
    | detail _ _ hweak | schema _ hweak =>
        rw [hgrave] at hweak
        cases hweak
  · intro hup
    obtain ⟨f, hfinding⟩ : ∃ f, g.finding? s.framework
        (c.component.argumentName s.tree s.framework .props) = some f := by
      refine Option.ne_none_iff_exists'.mp fun hnone => ?_
      rw [(finding?_eq_none_iff hgaps _).mp hnone] at hup
      cases hup
    have hcall : call ∈ s.tree.descendants s.tree.root := by
      have hunder := ht.attached_iff.mp hattached
      refine (ht.mem_descendants_iff ?_).mpr hunder
      rcases Tree.under_iff_eq_or_inside.mp hunder with heq | hinside
      · obtain ⟨_, _, hmem, -⟩ := exists_callee hc
        rw [heq, ← (spec_of_ofCall? hc).1]
        exact Tree.lt_size_of_mem_children hmem
      · obtain ⟨x, -, hx⟩ := Relation.TransGen.tail'_iff.mp hinside
        exact ht.lt_size hx
    obtain ⟨d, hd, hplace, hmessage⟩ := exists_of_finding? hcall hc hgaps hfinding
    refine ⟨d, hd, ?_, hplace⟩
    cases says_of_mem hd with
    | summary _ _ _ _ hgrave => exact hgrave
    | detail hdetail hmessage' _ =>
        rw [hmessage] at hmessage'
        exact absurd hmessage' (Finding.message_ne (Gaps.sumsUp_of_finding? hfinding) hdetail)
    | schema hplace' _ =>
        rw [hplace, isInterface_site hc] at hplace'
        cases hplace'

/-- A component with a field and a member of a reserved name, and a function that constructs it
twice, the first time with the field and the second time without it. -/
def constructedTwice : Draft NodeId := do
  let key ← Draft.property "key" none true
  let f ← Draft.property "f" (some (.simple "Int")) true
  let props ← Draft.interface "CProps" [.simple "RProps"] [key, f]
  let _ ← Draft.declare props
  let base ← Draft.supertype (.generic "RComponent" [.simple "CProps", .simple "RState"]) (some [])
  let component ← Draft.classDecl "C" none [base] []
  let _ ← Draft.declare component
  let name ← Draft.classRef "C"
  let assign ← Source.assignF
  let lambda ← Draft.lambda [assign]
  let first ← Draft.call "child" [name] (some lambda)
  let name ← Draft.classRef "C"
  let lambda ← Draft.lambda []
  let second ← Draft.call "child" [name] (some lambda)
  let body ← Draft.block [first, second]
  let function ← Draft.function { name := some "show" } [] body
  Draft.declare function

/-- The first construction is passed over in silence and the second one is reported, each at the
name that it calls. -/
theorem reported_iff_outdated_constructedTwice :
    let s : Source := { tree := (constructedTwice.run (Tree.ofFile "F")).2, framework := {} }
    let first : Construction := { component := { decl := 6, base := 5 }, call := 16 }
    let second : Construction := { component := { decl := 6, base := 5 }, call := 21 }
    s.tree.WellFormed ∧ s.tree.attached 16 = true ∧ s.tree.attached 21 = true ∧
      ofCall? s 16 = some first ∧ ofCall? s 21 = some second ∧
      (∃ g, first.gaps? s = some g ∧ g.upToDate = true) ∧
      (∃ g, second.gaps? s = some g ∧ g.upToDate = false) ∧
      (¬ ∃ d ∈ Audit.constructions.run s [], d.severity = .warning ∧ d.location = 15) ∧
      ∃ d ∈ Audit.constructions.run s [], d.severity = .warning ∧ d.location = 20 := by
  intro s first second
  have ht : s.tree.WellFormed := by decide +kernel
  have hattached : s.tree.attached 16 = true ∧ s.tree.attached 21 = true := by decide +kernel
  have hcalls : ofCall? s 16 = some first ∧ ofCall? s 21 = some second := by decide +kernel
  have hsites : first.site s = 15 ∧ second.site s = 20 := by decide +kernel
  have hgaps : (first.gaps? s).map (·.upToDate) = some true ∧
      (second.gaps? s).map (·.upToDate) = some false := by decide +kernel
  obtain ⟨g, hg, hup⟩ := Option.map_eq_some_iff.mp hgaps.1
  obtain ⟨g', hg', hup'⟩ := Option.map_eq_some_iff.mp hgaps.2
  have hfirst := reported_iff_outdated ht hattached.1 hcalls.1 hg
  have hsecond := reported_iff_outdated ht hattached.2 hcalls.2 hg'
  rw [hsites.1, hup] at hfirst
  rw [hsites.2, hup'] at hsecond
  exact ⟨ht, hattached.1, hattached.2, hcalls.1, hcalls.2, ⟨g, hg, hup⟩, ⟨g', hg', hup'⟩,
    fun h => absurd (hfirst.mp h) (by simp), hsecond.mpr rfl⟩

end Construction

end ComponentAudit
