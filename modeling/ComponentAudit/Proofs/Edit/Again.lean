import ComponentAudit.Proofs.Assign.Sound
import ComponentAudit.Proofs.Edit.Parts

set_option autoImplicit false

/-! # Running a synchronisation

What a run of `Builder.synchronize` does and leaves. Every edit of a plan can be made
(`SyncTask.allows_plan`), so a run that has a task succeeds: it makes the edits of the plan and then
drops the parameters without a use (`Builder.run_synchronize`). It leaves a file in which the parts
of the function and its component are still there (`Builder.edited_of_run`), so the function has a
task again (`Builder.exists_task_again`). A plan is empty just when the analysis finds nothing to
change (`SyncTask.InStep`).
-/

namespace ComponentAudit

/-- A construction that a builder function needs is the call that it consists of. -/
theorem Builder.call_of_needConstruction {b : Builder} {t : Tree} {c : Construction}
    (h : b.needConstruction t = .ok c) :
    t.functionBody? b.function = some c.call ∧ t.kind c.call = .call ∧
      c = { component := b.component, call := c.call } := by
  unfold Builder.needConstruction at h
  split at h
  · next construction hconstruction =>
    obtain rfl := Except.ok.inj h
    unfold Builder.construction? at hconstruction
    obtain ⟨call, hcall, hrest⟩ := Option.bind_eq_some_iff.mp hconstruction
    obtain ⟨⟨⟩, hguard, hc⟩ := Option.bind_eq_some_iff.mp hrest
    obtain rfl := Option.some.inj hc
    exact ⟨hcall, by simpa using hguard, rfl⟩
  · cases h

namespace SyncTask

variable {s : Source} {b : Builder}

/-- What a task is made from. -/
theorem of_eq_ok {k : SyncTask} (h : SyncTask.of s b = .ok k) :
    ∃ call lambda schema, b.Parts s.tree k.list call lambda k.body ∧ k.source = s ∧
      b.component.schema? s .props = some schema ∧ k.fields = schema.fields s ∧
      ({ component := b.component, call } : Construction).state? s = some k.state ∧
      k.parameters = s.tree.parameters b.function := by
  unfold SyncTask.of at h
  simp only [bind, Except.bind] at h
  -- whatever is missing would have been reported
  split at h
  case isFalse => cases h
  rename_i hattached
  split at h
  case h_2 => cases h
  rename_i list hlist
  split at h
  case h_1 => cases h
  rename_i construction hconstruction
  obtain ⟨hcall, hkind, hc⟩ := Builder.call_of_needConstruction hconstruction
  split at h
  case h_2 => cases h
  rename_i lambda hlambda
  split at h
  case h_2 => cases h
  rename_i body hbody
  split at h
  case h_2 => cases h
  rename_i schema hschema
  split at h
  case h_2 => cases h
  rename_i state hstate
  obtain rfl := Except.ok.inj h
  exact ⟨construction.call, lambda, schema, ⟨hattached, hlist, hcall, hkind, hlambda, hbody⟩, rfl,
    hschema, rfl, hc ▸ hstate, rfl⟩

/-- The task for a function with all its parts. -/
theorem exists_of {list call lambda body : NodeId} {schema : Schema}
    (h : b.Parts s.tree list call lambda body) (hknown : s.bodiesKnown = true)
    (hschema : b.component.schema? s .props = some schema) :
    ∃ k, SyncTask.of s b = .ok k := by
  obtain ⟨props, hprops, -⟩ := Option.bind_eq_some_iff.mp hschema
  have hconstruction : b.needConstruction s.tree = .ok { component := b.component, call } := by
    simp [Builder.needConstruction, Builder.construction?, h.call_eq, h.kind_call]
  -- with the parts in place only the analysis could fail, and it needs no more than the schema
  have hflow : s.flow? lambda = some ((s.bodyCode body).flow lambda) := by
    simp [Source.flow?, hknown, Source.bodyOf?, h.lambda_spec.2, h.body_eq]
  obtain ⟨state, hstate⟩ :
      ∃ state, ({ component := b.component, call } : Construction).state? s = some state := by
    simp [Construction.state?, Construction.fields?, Construction.lambda?, hschema, h.lambda_eq,
      hprops, hflow]
  unfold SyncTask.of
  simp only [bind, Except.bind, h.attached, if_true, h.list_eq, hconstruction,
    Construction.lambda?, h.lambda_eq, h.body_eq, hschema, hstate]
  exact ⟨_, rfl⟩

/-! ## The edits of a plan can be made -/

/-- Whether an edit of a task can be made, below the parameter list and the block of the lambda. -/
def Allows (k : SyncTask) (e : Edit) : Prop :=
  e.Below k.source.tree [k.list, k.body] ∧ e.check k.source.tree = .ok ()

/-- Whether an anchor that is in the tree is attached. -/
def Anchors (k : SyncTask) (a : Option Anchor) : Prop :=
  ∀ n, a = some (.existing n) → k.source.tree.attached n = true

/-- What holds of a plan in the making. -/
structure Sound (k : SyncTask) (p : Progress) : Prop where
  allows : ∀ e ∈ p.plan, k.Allows e
  parameter : k.Anchors p.parameter
  statement : k.Anchors p.statement

theorem check_eq_ok {t : Tree} {e : Edit} (h : ∀ n ∈ e.subjects, t.attached n = true)
    (hrename : ∀ n name, e = .rename n name →
      ((t.kind n).isParameter || (t.kind n).isReference) = true) : e.check t = .ok () := by
  have hnone : (e.subjects.find? fun n => !t.attached n) = none := by
    rw [List.find?_eq_none]
    intro n hn
    simp [h n hn]
  unfold Edit.check
  rw [hnone]
  cases e with
  | rename n name => simp [hrename n name rfl]
  | _ => rfl

/-- The writes that a task removes: those that name no field and lie in the block. -/
theorem mem_strayWrites_iff {k : SyncTask} (ht : k.source.tree.WellFormed) {n : NodeId} :
    n ∈ k.strayWrites ↔
      (∃ a ∈ k.state.unknown, a.anchor = some n) ∧ k.source.tree.Inside n k.body := by
  have hinside : k.source.tree.Inside n k.body ↔
      n ≠ k.body ∧ k.source.tree.isWithin n k.body = true := by
    rw [ht.isWithin_iff, Tree.under_iff_eq_or_inside]
    constructor
    · intro h
      refine ⟨?_, .inr h⟩
      rintro rfl
      exact ht.not_inside_of_under .refl h
    · rintro ⟨hne, h⟩
      exact h.resolve_left hne.symm
  have hseen (ns seen : List NodeId) :
      n ∈ ns.foldl (fun seen n => if n ∈ seen then seen else seen ++ [n]) seen ↔
        n ∈ seen ∨ n ∈ ns := by
    induction ns generalizing seen with
    | nil => simp
    | cons m ns ih =>
        rw [List.foldl_cons, ih]
        split <;> grind
  rw [strayWrites, hseen, hinside]
  simp [List.mem_filter, List.mem_filterMap]

section Allowed

variable {k : SyncTask} {call lambda : NodeId}
  (h : b.Parts k.source.tree k.list call lambda k.body)
  (hp : k.parameters = k.source.tree.parameters b.function) (ht : k.source.tree.WellFormed)

include h ht

theorem attached_of_inside {n top : NodeId} (htop : top ∈ [k.list, k.body])
    (hn : k.source.tree.Inside n top) : k.source.tree.attached n = true := by
  rw [ht.attached_iff]
  refine hn.under.trans (Relation.ReflTransGen.trans ?_ (h.root_above ht))
  rcases List.mem_pair.mp htop with rfl | rfl
  · exact (h.list_inside_function ht).under
  · exact (h.body_inside_function ht).under

/-- An edit of a single node below the list or the block. -/
theorem allows_of_inside {e : Edit} {n top : NodeId} (htop : top ∈ [k.list, k.body])
    (hn : k.source.tree.Inside n top) (hsubjects : e.subjects = [n])
    (hbelow : (∃ top ∈ [k.list, k.body], k.source.tree.Inside n top) →
      e.Below k.source.tree [k.list, k.body])
    (hrename : ∀ m name, e = .rename m name →
      ((k.source.tree.kind m).isParameter || (k.source.tree.kind m).isReference) = true) :
    k.Allows e := by
  refine ⟨hbelow ⟨top, htop, hn⟩, check_eq_ok ?_ hrename⟩
  rw [hsubjects]
  intro m hm
  obtain rfl := List.mem_singleton.mp hm
  exact attached_of_inside h ht htop hn

/-- An edit that inserts below the list or the block. -/
theorem allows_insert {e : Edit} {top : NodeId} {after : Option Anchor}
    (htop : top ∈ [k.list, k.body]) (hsubjects : e.subjects = top :: Edit.anchored after)
    (hbelow : (top ∈ [k.list, k.body] ∧ ¬ k.source.tree.Loose [k.list, k.body] top) →
      e.Below k.source.tree [k.list, k.body])
    (hrename : ∀ n name, e ≠ .rename n name) (hafter : k.Anchors after) : k.Allows e := by
  have hfree : ¬ k.source.tree.Loose [k.list, k.body] top ∧ k.source.tree.attached top = true := by
    rw [ht.attached_iff]
    rcases List.mem_pair.mp htop with rfl | rfl
    · exact ⟨h.not_loose_list ht, (h.list_inside_function ht).under.trans (h.root_above ht)⟩
    · exact ⟨h.not_loose_of_above ht .refl,
        (h.body_inside_function ht).under.trans (h.root_above ht)⟩
  refine ⟨hbelow ⟨htop, hfree.1⟩, check_eq_ok ?_ fun n name he => absurd he (hrename n name)⟩
  rw [hsubjects]
  intro m hm
  rcases List.mem_cons.mp hm with rfl | hm
  · exact hfree.2
  · unfold Edit.anchored at hm
    split at hm
    · obtain rfl := List.mem_singleton.mp hm
      exact hafter _ rfl
    · cases hm

include hp

theorem inside_of_parameter {p : NodeId} (hmem : p ∈ k.parameters) :
    k.source.tree.Inside p k.list := by
  rw [hp] at hmem
  exact .single (h.parent_parameter ht hmem)

theorem allows_retype {p : NodeId} (hmem : p ∈ k.parameters) (type : TypeExpr) :
    k.Allows (.retype p type) :=
  allows_of_inside h ht (by simp) (inside_of_parameter h hp ht hmem) rfl id (by simp)

theorem anchors_parameter {p : NodeId} (hmem : p ∈ k.parameters) :
    k.Anchors (some (.existing p)) := by
  intro n hn
  cases hn
  exact attached_of_inside h ht (by simp) (inside_of_parameter h hp ht hmem)

theorem sound_supplyParameter {p : Progress} (hs : k.Sound p) (f : Field) (name : String) :
    k.Sound (k.supplyParameter p f name) := by
  unfold supplyParameter
  split
  · next parameter hexisting =>
    have hmem := List.mem_of_find?_eq_some hexisting
    refine ⟨?_, anchors_parameter h hp ht hmem, hs.statement⟩
    dsimp only
    split
    · split
      · exact hs.allows
      · intro e he
        rcases List.mem_append.mp he with he | he
        · exact hs.allows e he
        · obtain rfl := List.mem_singleton.mp he
          exact allows_retype h hp ht hmem _
    · exact hs.allows
  · refine ⟨?_, fun n hn => by simp [Plan.push, Edit.inserts] at hn, hs.statement⟩
    intro e he
    rcases List.mem_append.mp he with he | he
    · exact hs.allows e he
    · obtain rfl := List.mem_singleton.mp he
      exact allows_insert h ht (by simp) rfl id (by simp) hs.parameter

omit hp in
theorem sound_supplyStatement {p : Progress} (hs : k.Sound p) (name : String) :
    k.Sound (k.supplyStatement p name) := by
  refine ⟨?_, hs.parameter, fun n hn => by simp [supplyStatement, Plan.push, Edit.inserts] at hn⟩
  intro e he
  rcases List.mem_append.mp he with he | he
  · exact hs.allows e he
  · obtain rfl := List.mem_singleton.mp he
    exact allows_insert h ht (by simp) rfl id (by simp) hs.statement

theorem sound_passField {p : Progress} (hs : k.Sound p) (a : Assignment) :
    k.Sound (k.passField p a) := by
  refine ⟨hs.allows, ?_, ?_⟩
  · unfold passField
    dsimp only
    split
    · split
      · next hmem => exact anchors_parameter h hp ht hmem
      · exact hs.parameter
    · exact hs.parameter
  · intro n hn
    obtain ⟨m, hm, heq⟩ := Option.map_eq_some_iff.mp hn
    cases heq
    -- the statement of the block that the assignment is in; it hangs below the block
    obtain ⟨anchor, -, hfind⟩ := Option.bind_eq_some_iff.mp hm
    have hparent : k.source.tree.parent n = some k.body := by
      simpa using List.find?_some hfind
    exact attached_of_inside h ht (by simp) (.single hparent)

/-- **Planning for a field** adds edits that can be made. -/
theorem sound_planField {p : Progress} (hs : k.Sound p) (f : Field) :
    k.Sound (k.planField p f) := by
  unfold planField
  split
  · exact hs
  · split
    · exact sound_passField h hp ht hs _
    · exact sound_supplyStatement h ht (sound_supplyParameter h hp ht hs f _) _

theorem allows_retypeOutdated {e : Edit} (he : e ∈ k.retypeOutdated) : k.Allows e := by
  obtain ⟨o, -, ho⟩ := List.mem_filterMap.mp he
  split at ho
  · obtain ⟨hmem, heq⟩ := Option.ite_none_right_eq_some.mp ho
    obtain rfl := Option.some.inj heq
    exact allows_retype h hp ht hmem _
  · cases ho

theorem allows_renameHandler {e : Edit} (he : e ∈ k.renameHandler) : k.Allows e := by
  unfold renameHandler at he
  split at he
  · cases he
  · next handler hhandler =>
    have hmem : handler ∈ k.parameters := List.mem_of_find?_eq_some hhandler
    split at he
    · cases he
    · split at he
      · obtain ⟨n, hn, rfl⟩ := List.mem_map.mp he
        rcases List.mem_cons.mp hn with rfl | hn
        · refine allows_of_inside h ht (by simp) (inside_of_parameter h hp ht hmem) rfl id ?_
          intro m name hm
          cases hm
          have hkind : (k.source.tree.kind n).isParameter = true := by
            rw [hp, Tree.parameters, h.list_eq] at hmem
            exact (List.mem_filter.mp hmem).2
          rw [hkind, Bool.true_or]
        · -- a use is a name below the block, and the block is no name
          have hlt := (h.body_inside_function ht).lt_size
          obtain ⟨hunder, href⟩ := (Source.mem_namesBelow_iff ht hlt).mp (List.mem_filter.mp hn).1
          refine allows_of_inside h ht (by simp : k.body ∈ _) ?_ rfl id ?_
          · rcases Tree.under_iff_eq_or_inside.mp hunder with heq | hinside
            · rw [← heq, h.kind_body] at href
              cases href
            · exact hinside
          · intro m name hm
            cases hm
            rw [href, Bool.or_true]
      · cases he

omit hp in
theorem allows_strayWrites {n : NodeId} (hn : n ∈ k.strayWrites) : k.Allows (.dropStatement n) := by
  obtain ⟨-, hinside⟩ := (mem_strayWrites_iff ht).mp hn
  exact allows_of_inside h ht (by simp) hinside rfl id (by simp)

/-- **Every edit of a plan can be made.** -/
theorem allows_plan {e : Edit} (he : e ∈ k.plan) : k.Allows e := by
  -- the fold over the fields keeps a plan sound
  have hsound (fields : List Field) {p : Progress} (hs : k.Sound p) :
      k.Sound (fields.foldl k.planField p) := by
    induction fields generalizing p with
    | nil => exact hs
    | cons f fields ih => exact ih (sound_planField h hp ht hs f)
  rcases List.mem_append.mp he with he | he
  · refine (hsound k.fields ⟨?_, fun n hn => by simp at hn, fun n hn => by simp at hn⟩).allows e he
    intro e he
    rcases List.mem_append.mp he with he | he
    · exact allows_retypeOutdated h hp ht he
    · exact allows_renameHandler h hp ht he
  · obtain ⟨n, hn, rfl⟩ := List.mem_map.mp he
    exact allows_strayWrites h ht hn

end Allowed

/-! ## Nothing left to do -/

/-- **In step**: the analysis finds nothing that a plan would change. -/
structure InStep (k : SyncTask) : Prop where
  /-- Every field with a name is assigned on all paths that the analysis sees. -/
  assigned : ∀ f ∈ k.fields, f.name ≠ none → k.state.assigns f = true
  /-- No parameter of the function is stored in a field of another type. -/
  typed : ∀ o ∈ (k.source.gaps k.state k.fields).outdated, o.parameter ∉ k.parameters
  /-- The children parameter has a name that no field has. -/
  handler : ∀ p, k.handler? = some p → ∀ name, k.source.tree.name? p = some name →
    Field.taken k.fields name = false
  /-- No write in the block of the lambda names anything but a field. -/
  known : ∀ a ∈ k.state.unknown, ∀ n, a.anchor = some n → ¬ k.source.tree.Inside n k.body

variable {k : SyncTask}

theorem plan_planField_eq_nil_iff {p : Progress} {f : Field} :
    (k.planField p f).plan = [] ↔ p.plan = [] ∧ (f.name ≠ none → k.state.assigns f = true) := by
  unfold planField State.assigns
  split
  · next hname => simp [hname]
  · next name hname =>
    split
    · next a ha => simp [ha, passField]
    · next ha => simp [ha, hname, supplyStatement, Plan.push]

theorem plan_foldl_eq_nil_iff {fields : List Field} {p : Progress} :
    (fields.foldl k.planField p).plan = [] ↔
      p.plan = [] ∧ ∀ f ∈ fields, f.name ≠ none → k.state.assigns f = true := by
  induction fields generalizing p with
  | nil => simp
  | cons f fields ih =>
      rw [List.foldl_cons, ih, plan_planField_eq_nil_iff, List.forall_mem_cons, and_assoc]

theorem retypeOutdated_eq_nil_iff : k.retypeOutdated = [] ↔
    ∀ o ∈ (k.source.gaps k.state k.fields).outdated, o.parameter ∉ k.parameters := by
  rw [retypeOutdated, List.filterMap_eq_nil_iff]
  refine forall₂_congr fun o ho => ?_
  -- Only a field whose type is known is reported.
  obtain ⟨type, htype⟩ : ∃ type, o.field.type = some type := by
    obtain ⟨⟨f, a⟩, -, hsome⟩ := List.mem_filterMap.mp ho
    dsimp only [Source.outdated?] at hsome
    split at hsome
    · obtain ⟨type, htype, hrest⟩ := Option.bind_eq_some_iff.mp hsome
      obtain ⟨written, -, hrest⟩ := Option.bind_eq_some_iff.mp hrest
      split at hrest
      · cases hrest
      · obtain rfl := Option.some.inj hrest
        exact ⟨type, htype⟩
    · cases hsome
  simp [htype]

theorem renameHandler_eq_nil_iff : k.renameHandler = [] ↔
    ∀ p, k.handler? = some p → ∀ name, k.source.tree.name? p = some name →
      Field.taken k.fields name = false := by
  unfold renameHandler
  split
  · next hnone => simp [hnone]
  · next handler hhandler =>
    split
    · next hname => simp [hhandler, hname]
    · next current hname =>
      split
      · next htaken => simp [hhandler, hname, htaken]
      · next htaken => simpa [hhandler, hname] using htaken

theorem strayWrites_eq_nil_iff (ht : k.source.tree.WellFormed) : k.strayWrites = [] ↔
    ∀ a ∈ k.state.unknown, ∀ n, a.anchor = some n → ¬ k.source.tree.Inside n k.body := by
  simp only [List.eq_nil_iff_forall_not_mem, mem_strayWrites_iff ht, not_and, forall_exists_index,
    and_imp]
  exact ⟨fun h a ha n => h n a ha, fun h n a ha => h a ha n⟩

/-- **A plan is empty just when its task is in step.** -/
theorem plan_eq_nil_iff (ht : k.source.tree.WellFormed) : k.plan = [] ↔ k.InStep := by
  have hplan : k.plan = [] ↔ (k.retypeOutdated = [] ∧ k.renameHandler = []) ∧
      (∀ f ∈ k.fields, f.name ≠ none → k.state.assigns f = true) ∧ k.strayWrites = [] := by
    rw [plan, List.append_eq_nil_iff, plan_foldl_eq_nil_iff, List.append_eq_nil_iff,
      List.map_eq_nil_iff, and_assoc]
  rw [hplan, retypeOutdated_eq_nil_iff, renameHandler_eq_nil_iff, strayWrites_eq_nil_iff ht]
  exact ⟨fun ⟨⟨htyped, hhandler⟩, hassigned, hknown⟩ => ⟨hassigned, htyped, hhandler, hknown⟩,
    fun hk => ⟨⟨hk.typed, hk.handler⟩, hk.assigned, hk.known⟩⟩

end SyncTask

/-! ## Running changes -/

namespace Change

variable {α β : Type} {t : Tree}

theorem run_bind_ok {c : Change α} {a : α} {u : Tree} (h : Change.run c t = (.ok a, u))
    (f : α → Change β) : Change.run (c >>= f) t = Change.run (f a) u := by
  show StateT.run (ExceptT.run (c >>= f)) t = _
  rw [ExceptT.run_bind, StateT.run_bind]
  rw [show StateT.run (ExceptT.run c) t = (.ok a, u) from h]
  rfl

theorem run_liftExcept (e : Except EditError α) : Change.run (liftExcept e) t = (e, t) := by
  cases e <;> rfl

theorem run_draft {d : Draft α} {a : α} {u : Tree} (h : d.run t = (a, u)) :
    Change.run (liftM d : Change α) t = (.ok a, u) := by
  show (Except.ok (d.run t).1, (d.run t).2) = _
  rw [h]

theorem run_source (fw : Framework) :
    Change.run (Change.source fw) t = (.ok { tree := t, framework := fw }, t) := rfl

end Change

/-- A plan of edits that can all be made is carried out. -/
theorem Plan.run_apply {p : Plan} {t : Tree} (h : ∀ e ∈ p, e.check t = .ok ()) :
    Change.run p.apply t = (.ok p.length, ((Edit.performAll [] p).run t).2) := by
  have hcheck : p.check t = .ok () := by
    unfold Plan.check
    induction p with
    | nil => rfl
    | cons e p ih =>
        show (e.check t >>= fun _ => p.forM (·.check t)) = _
        rw [h e List.mem_cons_self]
        exact ih fun e he => h e (List.mem_cons_of_mem _ he)
  have hget : Change.run (get : Change Tree) t = (.ok t, t) := rfl
  have hlift : Change.run (liftExcept (p.check t)) t = (.ok (), t) := by
    rw [Change.run_liftExcept, hcheck]
  unfold Plan.apply
  rw [Change.run_bind_ok hget, Change.run_bind_ok hlift]
  rfl

/-- Dropping parameters one by one. -/
theorem Edit.performAll_dropParameter (created ps : List NodeId) (t : Tree) :
    ((performAll created (ps.map .dropParameter)).run t).2 = ps.foldl Tree.detach t := by
  induction ps generalizing created t with
  | nil => rfl
  | cons p ps ih =>
      rw [List.map_cons, performAll, Draft.run_bind]
      exact ih _ _

namespace Builder

variable {b : Builder} {fw : Framework} {t : Tree}

/-- The parameters without a use can all be dropped. -/
theorem run_dropUnused {list call lambda body : NodeId} (h : b.Parts t list call lambda body)
    (ht : t.WellFormed) {unused : List NodeId}
    (hunused : unused = ({ tree := t, framework := fw } : Source).unused b.function body) :
    Change.run (b.dropUnused fw) t = (.ok unused.length, unused.foldl Tree.detach t) := by
  have hplan : Change.run (liftExcept (({ tree := t, framework := fw } : Source).unusedPlan b)) t =
      (.ok (unused.map .dropParameter), t) := by
    rw [Change.run_liftExcept, h.unusedPlan_eq, ← hunused]
  have hcheck : ∀ e ∈ unused.map Edit.dropParameter, e.check t = .ok () := by
    intro e he
    obtain ⟨p, hp, rfl⟩ := List.mem_map.mp he
    rw [hunused] at hp
    have hparent := h.parent_parameter (s := { tree := t, framework := fw }) ht
      (List.mem_filter.mp hp).1
    refine SyncTask.check_eq_ok ?_ (by simp)
    intro n hn
    obtain rfl := List.mem_singleton.mp hn
    rw [ht.attached_iff]
    exact .head hparent ((h.list_inside_function ht).under.trans (h.root_above ht))
  have happly := Plan.run_apply hcheck
  rw [List.length_map, Edit.performAll_dropParameter] at happly
  unfold dropUnused
  rw [Change.run_bind_ok (Change.run_source fw), Change.run_bind_ok hplan, happly]

/-- A run that succeeds had a task. -/
theorem exists_task_of_run {n : Nat} {u : Tree}
    (h : Change.run (b.synchronize fw) t = (.ok n, u)) :
    ∃ k, SyncTask.of { tree := t, framework := fw } b = .ok k := by
  cases hk : SyncTask.of { tree := t, framework := fw } b with
  | ok k => exact ⟨k, rfl⟩
  | error e =>
      unfold synchronize at h
      rw [Change.run_bind_ok (Change.run_source fw), Source.syncPlan, hk] at h
      cases h

section Run

variable {k : SyncTask} (ht : t.WellFormed)
  (hk : SyncTask.of { tree := t, framework := fw } b = .ok k)

include ht hk

theorem allows_of_task {e : Edit} (he : e ∈ k.plan) :
    e.Below t [k.list, k.body] ∧ e.check t = .ok () := by
  obtain ⟨call, lambda, schema, hparts, hsource, -, -, -, hparameters⟩ := SyncTask.of_eq_ok hk
  have htree : k.source.tree = t := by rw [hsource]
  rw [← htree] at ht hparts hparameters ⊢
  exact SyncTask.allows_plan hparts hparameters ht he

/-- What the edits of a plan leave. -/
theorem edited_plan : t.Edited [k.list, k.body] ((Edit.performAll [] k.plan).run t).2 :=
  Edit.edited_performAll ht (.refl ht) (fun _ he => (allows_of_task ht hk he).1) []

/-- **What a run does**: it makes the edits of the plan, and then it drops the parameters that
have no use after that. -/
theorem run_synchronize {u : Tree} (hu : u = ((Edit.performAll [] k.plan).run t).2)
    {unused : List NodeId}
    (hunused : unused = ({ tree := u, framework := fw } : Source).unused b.function k.body) :
    Change.run (b.synchronize fw) t =
      (.ok (k.plan.length + unused.length), unused.foldl Tree.detach u) := by
  obtain ⟨call, lambda, -, hparts, -⟩ := SyncTask.of_eq_ok hk
  have hedited := edited_plan ht hk
  rw [← hu] at hedited
  have hsync : Change.run (liftExcept (({ tree := t, framework := fw } : Source).syncPlan b)) t =
      (.ok k.plan, t) := by
    rw [Change.run_liftExcept, Source.syncPlan, hk]
    rfl
  have happly : Change.run k.plan.apply t = (.ok k.plan.length, u) := by
    rw [hu]
    exact Plan.run_apply fun e he => (allows_of_task ht hk he).2
  have hdrop : Change.run (b.dropUnused fw) u = (.ok unused.length, unused.foldl Tree.detach u) :=
    run_dropUnused (Builder.Parts.edited hparts ht hedited) hedited.wellFormed hunused
  unfold synchronize
  rw [Change.run_bind_ok (Change.run_source fw), Change.run_bind_ok hsync,
    Change.run_bind_ok happly, Change.run_bind_ok hdrop]
  rfl

/-- **What a run leaves**: a file that differs below the parameter list and the block of the
lambda only, where every parameter has a use. -/
theorem edited_of_run {n : Nat} {v : Tree} (h : Change.run (b.synchronize fw) t = (.ok n, v)) :
    t.Edited [k.list, k.body] v ∧
      ({ tree := v, framework := fw } : Source).unused b.function k.body = [] := by
  obtain ⟨call, lambda, -, hparts, -⟩ := SyncTask.of_eq_ok hk
  generalize hu : ((Edit.performAll [] k.plan).run t).2 = u
  generalize hunused : ({ tree := u, framework := fw } : Source).unused b.function k.body = unused
  rw [run_synchronize ht hk hu.symm hunused.symm] at h
  obtain rfl : unused.foldl Tree.detach u = v := (Prod.mk.inj h).2
  have hedited : t.Edited [k.list, k.body] u := hu ▸ edited_plan ht hk
  have hparts' : b.Parts u k.list call lambda k.body := Builder.Parts.edited hparts ht hedited
  have hparent : ∀ p ∈ unused, u.parent p = some k.list := by
    intro p hp
    rw [← hunused] at hp
    exact Builder.Parts.parent_parameter hparts' hedited.wellFormed (List.mem_filter.mp hp).1
  constructor
  · have hdrops : u.Edited [k.list, k.body] (unused.foldl Tree.detach u) := by
      rw [← Edit.performAll_dropParameter []]
      refine Edit.edited_performAll hedited.wellFormed (.refl hedited.wellFormed) ?_ []
      intro e he
      obtain ⟨p, hp, rfl⟩ := List.mem_map.mp he
      exact ⟨k.list, by simp, .single (hparent p hp)⟩
    exact Tree.Edited.trans ht hedited hdrops
  · refine Builder.Parts.unused_of_dropped (s := { tree := u, framework := fw }) hparts'
      hedited.wellFormed ?_
    rw [hunused]
    exact Tree.dropped_foldl_detach hedited.wellFormed hparts'.kind_list hparent

end Run

/-- **What a run does when every parameter has a use**: it makes no edit and changes nothing just
when the task is in step. -/
theorem exists_run_of_used {k : SyncTask} (ht : t.WellFormed)
    (hk : SyncTask.of { tree := t, framework := fw } b = .ok k)
    (hused : ({ tree := t, framework := fw } : Source).unused b.function k.body = []) :
    ∃ m v, Change.run (b.synchronize fw) t = (.ok m, v) ∧ ((m = 0 ∧ v = t) ↔ k.InStep) := by
  obtain ⟨-, -, -, -, hsource, -⟩ := SyncTask.of_eq_ok hk
  have hstep : k.plan = [] ↔ k.InStep := SyncTask.plan_eq_nil_iff (by rw [hsource]; exact ht)
  refine ⟨_, _, run_synchronize ht hk rfl rfl, ?_⟩
  rw [← hstep]
  constructor
  · rintro ⟨hlength, -⟩
    exact List.length_eq_zero_iff.mp (Nat.add_eq_zero_iff.mp hlength).1
  · intro hplan
    have hsame : ((Edit.performAll [] k.plan).run t).2 = t := by rw [hplan]; rfl
    rw [hsame, hused, hplan]
    exact ⟨rfl, rfl⟩

/-- **A builder function that was synchronised has a task again**, with the same block, and every
parameter has a use there. -/
theorem exists_task_again {function : NodeId} {n : Nat} {u : Tree} {k : SyncTask}
    (ht : t.WellFormed) (hb : Builder.ofFunction? { tree := t, framework := fw } function = some b)
    (hk : SyncTask.of { tree := t, framework := fw } b = .ok k)
    (h : Change.run (b.synchronize fw) t = (.ok n, u)) :
    ∃ k', SyncTask.of { tree := u, framework := fw } b = .ok k' ∧ k'.body = k.body ∧
      ({ tree := u, framework := fw } : Source).unused b.function k'.body = [] := by
  obtain ⟨call, lambda, schema, hparts, -, hschema, -⟩ := SyncTask.of_eq_ok hk
  obtain ⟨hedited, hunused⟩ := edited_of_run ht hk h
  have hparts' : b.Parts u k.list call lambda k.body := Builder.Parts.edited hparts ht hedited
  have hschema' : b.component.schema? { tree := u, framework := fw } .props = some schema := by
    rw [← hschema]
    exact Builder.Parts.schema?_eq hparts ht hedited (Builder.declared_of_ofFunction? hb) .props
  obtain ⟨k', hk'⟩ := SyncTask.exists_of hparts' rfl hschema'
  obtain ⟨_, _, _, hagain, -⟩ := SyncTask.of_eq_ok hk'
  have hbody : k'.body = k.body := hparts'.body_unique hagain
  exact ⟨k', hk', hbody, hbody ▸ hunused⟩

end Builder

end ComponentAudit
