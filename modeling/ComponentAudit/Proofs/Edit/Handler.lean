import ComponentAudit.Proofs.Edit.Ahead
import ComponentAudit.Proofs.Edit.Carried
import ComponentAudit.Proofs.Edit.Unused

set_option autoImplicit false

/-! # The children parameter

The children parameter makes way when a field has its name: it gets a name that is no field's, as
long as there is one, and so do the names in the block that mean it. Other parameters are not looked
at. So the new name can already be that of a parameter in front of the children parameter, or that
of a parameter of a function around the use; and when no name was free, a parameter that is inserted
can have it (`SyncTask.Captures`).

Main statement: `Builder.synchronize_keeps_handler_iff`, the names in the block that mean the
children parameter go on to mean it, and it stays, exactly if nothing captures them.
-/

namespace ComponentAudit

namespace SyncTask

/-- The names in the block that mean a parameter. -/
def usesOf (k : SyncTask) (p : NodeId) : List NodeId :=
  (k.source.namesBelow k.body).filter fun n => k.source.resolve? n == some p

/-- The nodes that get a new name, given the children parameter and its name. -/
def renamed (k : SyncTask) (handler : NodeId) (current : String) : List NodeId :=
  if Field.taken k.fields current then handler :: k.usesOf handler else []

/-- The kinds of nodes after the renaming. -/
def label (k : SyncTask) (handler : NodeId) (current : String) (n : NodeId) : Kind :=
  if n ∈ k.renamed handler current then
    (k.source.tree.kind n).withName (bodyName k.source.framework.bodyParameter k.fields)
  else k.source.tree.kind n

/-- The name of the children parameter in the end, given the one it has. -/
def finalName (k : SyncTask) (current : String) : String :=
  if Field.taken k.fields current then bodyName k.source.framework.bodyParameter k.fields
  else current

/-- Whether a use of the children parameter would mean something else under some name: a parameter
in front of it has the name, or one of a function around the use, or one that is inserted in front
of it. -/
def Captures (k : SyncTask) (handler x : NodeId) (name : String) : Prop :=
  (∃ p ∈ k.parameters, [p, handler].Sublist k.parameters ∧ k.source.tree.name? p = some name) ∨
    (∃ f ∈ k.source.tree.ancestors x, k.source.tree.isWithin f k.body = true ∧
      (k.source.tree.kind f).isFunction = true ∧
        ∃ p ∈ k.source.tree.parameters f, k.source.tree.name? p = some name) ∨
    k.PutsAhead handler k.fields name

instance (k : SyncTask) (handler x : NodeId) (name : String) :
    Decidable (k.Captures handler x name) :=
  inferInstanceAs (Decidable (_ ∨ _ ∨ k.PutsAhead handler k.fields name))

theorem renameHandler_eq {k : SyncTask} {handler : NodeId} {current : String}
    (hhandler : k.handler? = some handler) (hname : k.source.tree.name? handler = some current) :
    k.renameHandler = (k.renamed handler current).map fun n =>
      .rename n (bodyName k.source.framework.bodyParameter k.fields) := by
  simp only [renameHandler, hhandler, hname, renamed, usesOf]
  split <;> rfl

theorem mem_renamed {k : SyncTask} {handler n : NodeId} {current : String}
    (hn : n ∈ k.renamed handler current) : n = handler ∨ n ∈ k.usesOf handler := by
  unfold renamed at hn
  split at hn
  · exact List.mem_cons.mp hn
  · cases hn

/-- Before the fields are gone through nothing is inserted. -/
theorem insertions_base (k : SyncTask) : k.base.insertions = 0 := by
  refine List.countP_eq_zero.mpr fun e he => ?_
  rcases List.mem_append.mp he with he | he
  · obtain ⟨o, -, -, type, -, rfl⟩ := mem_retypeOutdated.mp he
    simp [Edit.inserts]
  · unfold renameHandler at he
    split at he
    · cases he
    · split at he
      · cases he
      · split at he
        · obtain ⟨n, -, rfl⟩ := List.mem_map.mp he
          simp [Edit.inserts]
        · cases he

end SyncTask

theorem Edit.foldl_step_rename (ns : List NodeId) (name : String) (x : List NodeId × Tree) :
    (ns.map fun n => .rename n name).foldl step x = (x.1, x.2.renameAll ns name) := by
  induction ns generalizing x with
  | nil => rfl
  | cons n ns ih =>
      have hstep : step x (.rename n name) = (x.1, x.2.renameLocal n name) :=
        Prod.ext (List.append_nil _) rfl
      rw [List.map_cons, List.foldl_cons, hstep, ih]
      rfl

namespace Builder

/-- Between the block and the function there are the lambda and the call. -/
theorem Parts.kind_between {b : Builder} {t : Tree} {list call lambda body c : NodeId}
    (h : b.Parts t list call lambda body) (ht : t.WellFormed) (hbc : t.Under body c)
    (hcf : t.Inside c b.function) : t.kind c = .block ∨ t.kind c = .lambda ∨ t.kind c = .call := by
  have up {n p : NodeId} (hp : n ∈ t.children p) (hnc : t.Under n c) : n = c ∨ t.Under p c := by
    rcases Relation.ReflTransGen.cases_head hnc with heq | ⟨q, hq, hqc⟩
    · exact .inl heq
    · obtain rfl : p = q := Option.some.inj ((ht.mem_children_iff.mp hp).symm.trans hq)
      exact .inr hqc
  rcases up h.mem_body hbc with rfl | hlc
  · exact .inl h.kind_body
  rcases up h.lambda_spec.1 hlc with rfl | hcc
  · exact .inr (.inl h.lambda_spec.2)
  rcases up h.mem_call hcc with rfl | hfc
  · exact .inr (.inr h.kind_call)
  · exact absurd hcf (ht.not_inside_of_under hfc)

/-- A task for a builder function with a children parameter. -/
structure HandlerTask (b : Builder) (fw : Framework) (t : Tree) (k : SyncTask)
    (call lambda handler : NodeId) (current : String) : Prop where
  wellFormed : t.WellFormed
  task_eq : SyncTask.of { tree := t, framework := fw } b = .ok k
  source_eq : k.source = { tree := t, framework := fw }
  parts : b.Parts t k.list call lambda k.body
  parameters_eq : k.parameters = t.parameters b.function
  handler_eq : k.handler? = some handler
  name_eq : t.name? handler = some current

namespace HandlerTask

variable {b : Builder} {fw : Framework} {t : Tree} {k : SyncTask} {call lambda handler : NodeId}
  {current : String} (h : b.HandlerTask fw t k call lambda handler current)

include h

theorem tree_eq : k.source.tree = t := by rw [h.source_eq]

theorem mem_handler : handler ∈ k.parameters := List.mem_of_find?_eq_some h.handler_eq

theorem filter_parameters :
    k.parameters = (t.children k.list).filter fun p => (t.kind p).isParameter := by
  rw [h.parameters_eq, Tree.parameters, h.parts.list_eq]

theorem handler_spec : handler ∈ t.children k.list ∧ (t.kind handler).isParameter = true := by
  have hmem := h.mem_handler
  rw [h.filter_parameters] at hmem
  exact List.mem_filter.mp hmem

/-- What stands in the list is not in the block. -/
theorem not_inside {p : NodeId} (hp : p ∈ t.children k.list) : ¬ t.Inside p k.body := by
  intro hinside
  obtain ⟨q, hq, hqb⟩ := hinside.exists_parent
  obtain rfl : k.list = q := Option.some.inj ((h.wellFormed.mem_children_iff.mp hp).symm.trans hq)
  exact h.parts.list_not_under_body h.wellFormed hqb

/-- A use of the children parameter has its name. -/
theorem mem_usesOf_iff {x : NodeId} : x ∈ k.usesOf handler ↔ t.Inside x k.body ∧
    t.kind x = .reference current ∧
      ({ tree := t, framework := fw } : Source).resolve? x = some handler := by
  have hlt := (h.parts.body_inside_function h.wellFormed).lt_size
  rw [SyncTask.usesOf, List.mem_filter, h.source_eq, Source.mem_namesBelow_iff h.wellFormed hlt,
    beq_iff_eq]
  constructor
  · rintro ⟨⟨hunder, href⟩, hresolve⟩
    obtain ⟨name, hk⟩ : ∃ name, t.kind x = .reference name := by
      cases hk : t.kind x <;> simp_all [Kind.isReference]
    have hname := Source.name?_of_resolve? (s := { tree := t, framework := fw }) hk hresolve
    obtain rfl : current = name := Option.some.inj (h.name_eq.symm.trans hname)
    refine ⟨(Tree.under_iff_eq_or_inside.mp hunder).resolve_left ?_, hk, hresolve⟩
    rintro rfl
    simp [h.parts.kind_body] at hk
  · rintro ⟨hinside, hk, hresolve⟩
    exact ⟨⟨hinside.under, by simp [hk, Kind.isReference]⟩, hresolve⟩

/-- What a use means is found out along the way up from it. -/
theorem meaning_of_use {x : NodeId} (hx : x ∈ k.usesOf handler) :
    ({ tree := t, framework := fw } : Source).qualifier? x = none ∧
      (∀ c, t.Inside x c → t.Inside c b.function →
        ({ tree := t, framework := fw } : Source).Passes current c) ∧
      ({ tree := t, framework := fw } : Source).firstNamed? current (t.parameters b.function) =
        some handler := by
  obtain ⟨hinside, hkind, hresolve⟩ := h.mem_usesOf_iff.mp hx
  exact (Source.resolve?_eq_parameter_iff (s := { tree := t, framework := fw }) h.wellFormed
    h.parts.kind_function (h.parameters_eq ▸ h.mem_handler)
    (hinside.trans (h.parts.body_inside_function h.wellFormed)) hkind).mp hresolve

theorem stray {n : NodeId} (hn : n ∈ k.strayWrites) : t.Stray k.body n :=
  SyncTask.stray_of_mem (s := { tree := t, framework := fw }) h.wellFormed rfl h.task_eq hn

/-! ## The kinds after the renaming -/

theorem label_use {x : NodeId} (hx : x ∈ k.usesOf handler) :
    k.label handler current x = .reference (k.finalName current) := by
  have hk := (h.mem_usesOf_iff.mp hx).2.1
  unfold SyncTask.label SyncTask.renamed SyncTask.finalName
  rw [h.tree_eq, hk]
  by_cases htaken : Field.taken k.fields current = true
  · simp [htaken, hx, Kind.withName]
  · simp [htaken]

theorem label_handler :
    ∃ initial, k.label handler current handler = .parameter (k.finalName current) initial := by
  obtain ⟨name, initial, hk⟩ : ∃ name initial, t.kind handler = .parameter name initial := by
    have hkind := h.handler_spec.2
    cases hk : t.kind handler <;> simp_all [Kind.isParameter]
  obtain rfl : current = name := by
    have hname := h.name_eq
    rw [Tree.name?, hk] at hname
    exact (Option.some.inj hname).symm
  refine ⟨initial, ?_⟩
  unfold SyncTask.label SyncTask.renamed SyncTask.finalName
  rw [h.tree_eq, hk]
  by_cases htaken : Field.taken k.fields current = true
  · simp [htaken, Kind.withName]
  · simp [htaken]

theorem label_parameter {p : NodeId} (hp : p ∈ t.children k.list) (hne : p ≠ handler) :
    k.label handler current p = t.kind p := by
  rw [SyncTask.label, if_neg, h.tree_eq]
  intro hmem
  have huse := (SyncTask.mem_renamed hmem).resolve_left hne
  exact h.not_inside hp (h.mem_usesOf_iff.mp huse).1

theorem label_inside {n : NodeId} (hn : t.Inside n k.body) :
    k.label handler current n = t.kind n ∨ ∃ old new, t.kind n = .reference old ∧
      k.label handler current n = .reference new := by
  by_cases hmem : n ∈ k.renamed handler current
  · refine .inr ?_
    have huse : n ∈ k.usesOf handler := by
      refine (SyncTask.mem_renamed hmem).resolve_left ?_
      rintro rfl
      exact h.not_inside h.handler_spec.1 hn
    exact ⟨current, _, (h.mem_usesOf_iff.mp huse).2.1, h.label_use huse⟩
  · exact .inl (by rw [SyncTask.label, if_neg hmem, h.tree_eq])

/-! ## What the edits leave -/

/-- Where the fields begin, the list is as it was, and the names are given. -/
theorem exists_base : ∃ u, Edit.outcome t k.base = ([], u) ∧ b.Parts u k.list call lambda k.body ∧
    u.children k.list = t.children k.list ∧
      t.Carried k.list k.body (k.label handler current) u := by
  have ht := h.wellFormed
  have hretype : ∀ e ∈ k.retypeOutdated, e.Supplies t k.list k.body := by
    intro e he
    obtain ⟨o, -, hp, type, -, rfl⟩ := SyncTask.mem_retypeOutdated.mp he
    rw [h.filter_parameters] at hp
    exact (List.mem_filter.mp hp).1
  have hsupplied := Edit.supplied_outcome h.parts ht hretype
  have hcarried := (Tree.Carried.refl ht).kept ht hsupplied.kept hsupplied.parameters
    hsupplied.statements
  -- no edit so far inserts a parameter
  have hlist : (Edit.outcome t k.retypeOutdated).2.children k.list = t.children k.list := by
    refine (hsupplied.parameters.eq_of_length_le ?_).symm
    refine ((hcarried.wellFormed.nodup_children k.list).subperm fun p hp => ?_).length_le
    refine (hsupplied.parameter_cases p hp).resolve_right ?_
    rintro ⟨-, after, name, -, hmem⟩
    obtain ⟨o, -, -, type, -, heq⟩ := SyncTask.mem_retypeOutdated.mp hmem
    cases heq
  have hcreated : (Edit.outcome t k.base).1 = [] :=
    List.eq_nil_of_length_eq_zero ((Edit.length_outcome t k.base).trans k.insertions_base)
  have houtcome : (Edit.outcome t k.base).2 = (Edit.outcome t k.retypeOutdated).2.renameAll
      (k.renamed handler current) (bodyName k.source.framework.bodyParameter k.fields) := by
    rw [SyncTask.base, Edit.outcome_append,
      SyncTask.renameHandler_eq h.handler_eq (h.tree_eq ▸ h.name_eq), Edit.foldl_step_rename]
  have hedited : t.Edited [k.list, k.body] (Edit.outcome t k.base).2 := by
    rw [Edit.outcome, ← Edit.performAll_eq k.base ([], t)]
    refine Edit.edited_performAll ht (.refl ht) (fun e he => ?_) []
    exact (allows_of_task ht h.task_eq (List.mem_append_left _
      (SyncTask.plan_subset_foldl k.fields { plan := k.base } he))).1
  refine ⟨(Edit.outcome t k.base).2, Prod.ext hcreated rfl, h.parts.edited ht hedited, ?_, ?_⟩
  · rw [houtcome, ((Tree.renameAll_spec hcarried.wellFormed _ _).2 k.list).2, hlist]
  · rw [houtcome]
    have hrenamed := hcarried.renameAll (k.renamed handler current)
      (bodyName k.source.framework.bodyParameter k.fields)
    rw [← h.tree_eq] at hrenamed ⊢
    exact hrenamed

end HandlerTask

/-- What the edits of a plan leave: the tree `w` before statements are removed, and the tree `u`
after that. -/
structure HandlerStages (t : Tree) (k : SyncTask) (handler : NodeId) (current : String)
    (w u : Tree) : Prop where
  carried : t.Carried k.list k.body (k.label handler current) w
  pruned : w.Pruned k.strayWrites u
  edited : t.Edited [k.list, k.body] u
  parameter_cases : ∀ q ∈ w.children k.list,
    q ∈ t.children k.list ∨ (w.kind q).isParameter = true
  ahead : ∀ name, k.PutsAhead handler k.fields name ↔ ∃ q, q ∉ t.children k.list ∧
    [q, handler].Sublist (w.children k.list) ∧ w.name? q = some name

namespace HandlerTask

variable {b : Builder} {fw : Framework} {t : Tree} {k : SyncTask} {call lambda handler : NodeId}
  {current : String} (h : b.HandlerTask fw t k call lambda handler current)

include h

theorem exists_stages : ∃ w u, HandlerStages t k handler current w u ∧
    u = ((Edit.performAll [] k.plan).run t).2 := by
  have ht := h.wellFormed
  obtain ⟨t', hbase, hparts, hlist, hcarried⟩ := h.exists_base
  have hparameters : k.parameters =
      (t'.children k.list).filter fun p => (k.source.tree.kind p).isParameter := by
    rw [hlist, h.tree_eq, h.filter_parameters]
  obtain ⟨es, hfront, hes, hahead⟩ := SyncTask.exists_front hparts hcarried.wellFormed hparameters
    k.insertions_base h.mem_handler
  have hs := Edit.supplied_outcome hparts hcarried.wellFormed hes
  have hplan : k.strayWrites.foldl Tree.dropStatement (Edit.outcome t' es).2 =
      ((Edit.performAll [] k.plan).run t).2 := by
    have hperform := Edit.performAll_eq k.plan ([], t)
    rw [hperform, SyncTask.plan_eq, List.foldl_append, Edit.foldl_step_dropStatement, hfront,
      List.foldl_append, ← Edit.outcome, hbase]
    rfl
  refine ⟨_, _, ⟨hcarried.kept ht hs.kept hs.parameters hs.statements,
    Tree.pruned_foldl hs.kept.wellFormed k.strayWrites, ?_, fun q hq => ?_, fun name => ?_⟩, hplan⟩
  · rw [hplan]
    exact edited_plan ht h.task_eq
  · rw [← hlist]
    refine (hs.parameter_cases q hq).imp_right ?_
    rintro ⟨-, after, name, hkind, -⟩
    simp [hkind, Kind.isParameter]
  · rw [hahead name, hlist]

/-! ## What the uses mean -/

section

variable {w u : Tree} (hs : HandlerStages t k handler current w u)

include hs

/-- The parameters after the edits. -/
theorem parameters_after : u.parameters b.function =
    (w.children k.list).filter fun p => (w.kind p).isParameter := by
  have hparts := h.parts.edited h.wellFormed hs.edited
  rw [Tree.parameters, hparts.list_eq]
  simp only [hs.pruned.kind_eq]
  rw [hs.carried.children_list_of_pruned h.wellFormed h.parts hs.pruned fun _ => h.stray]

theorem kind_handler_after :
    ∃ initial, w.kind handler = .parameter (k.finalName current) initial := by
  obtain ⟨initial, hlabel⟩ := h.label_handler
  exact ⟨initial, (hs.carried.kind_parameter handler h.handler_spec.1).trans hlabel⟩

theorem mem_parameters_after : handler ∈ u.parameters b.function := by
  obtain ⟨initial, hkind⟩ := h.kind_handler_after hs
  rw [h.parameters_after hs]
  exact List.mem_filter.mpr
    ⟨hs.carried.parameters.subset h.handler_spec.1, by simp [hkind, Kind.isParameter]⟩

/-- **Among the parameters**, the children parameter is the first one of its name exactly if none in
front of it had the name, and none was inserted there. -/
theorem firstNamed?_iff :
    ({ tree := u, framework := fw } : Source).firstNamed? (k.finalName current)
        (u.parameters b.function) = some handler ↔
      ¬ ((∃ p ∈ k.parameters, [p, handler].Sublist k.parameters ∧
          t.name? p = some (k.finalName current)) ∨
        k.PutsAhead handler k.fields (k.finalName current)) := by
  have hnodup := hs.carried.wellFormed.nodup_children k.list
  have hmem := hs.carried.parameters.subset h.handler_spec.1
  obtain ⟨initial, hkind⟩ := h.kind_handler_after hs
  have hself : (w.kind handler).isParameter = true := by simp [hkind, Kind.isParameter]
  -- a parameter that was in front of the children parameter is there still
  have hold {q : NodeId} (hq : q ∈ t.children k.list)
      (hpair : [q, handler].Sublist (w.children k.list)) : w.kind q = t.kind q := by
    have hne : q ≠ handler := by
      rintro rfl
      exact absurd (hpair.nodup hnodup) (by simp)
    rw [hs.carried.kind_parameter q hq, h.label_parameter hq hne]
  rw [h.parameters_after hs, Source.firstNamed?_eq_some_iff (hnodup.filter _)
    (List.mem_filter.mpr ⟨hmem, hself⟩)]
  have hname {q : NodeId} : ({ tree := u, framework := fw } : Source).tree.name? q = w.name? q := by
    simp only [Tree.name?, hs.pruned.kind_eq]
  simp only [hname, pair_sublist_filter_iff, h.filter_parameters, hs.ahead]
  constructor
  · rintro ⟨-, hfirst⟩ (⟨p, -, ⟨hpair, hp, -⟩, heq⟩ | ⟨q, hq, hpair, heq⟩)
    · have hpair' := hpair.trans hs.carried.parameters
      have hkind := hold (hpair.subset List.mem_cons_self) hpair'
      refine hfirst p ⟨hpair', hkind ▸ hp, hself⟩ ?_
      rw [Tree.name?, hkind, ← Tree.name?, heq]
    · have hp := (hs.parameter_cases q (hpair.subset List.mem_cons_self)).resolve_left hq
      exact hfirst q ⟨hpair, hp, hself⟩ heq
  · rw [not_or]
    rintro ⟨hbefore, hahead⟩
    refine ⟨by simp [Tree.name?, hkind, Kind.name?], fun q hpair heq => ?_⟩
    obtain ⟨hpair, hp, -⟩ := hpair
    by_cases hq : q ∈ t.children k.list
    · have hkind := hold hq hpair
      rw [Tree.name?, hkind, ← Tree.name?] at heq
      rw [hkind] at hp
      have hpair' := pair_sublist_of_sublist hs.carried.parameters hnodup hq h.handler_spec.1 hpair
      exact hbefore ⟨q, List.mem_filter.mpr ⟨hq, hp⟩, ⟨hpair', hp, h.handler_spec.2⟩, heq⟩
    · exact hahead ⟨q, hq, hpair, heq⟩

/-- The way up from a use that is still in the file is the way it was. -/
theorem parent_eq {x a : NodeId} (hx : x ∈ k.usesOf handler) (hattached : u.attached x = true)
    (ha : t.Under x a) : u.parent a = t.parent a :=
  hs.carried.parent_eq_of_attached h.wellFormed h.parts hs.pruned hs.edited
    (h.mem_usesOf_iff.mp hx).1 hattached ha

/-- **Around a use**, the scopes in the function leave the name to the parameters of the function
exactly if no function in the block around the use takes it. -/
theorem passes_iff {x : NodeId} (hx : x ∈ k.usesOf handler) (hattached : u.attached x = true) :
    (∀ c, u.Inside x c → u.Inside c b.function →
        ({ tree := u, framework := fw } : Source).Passes (k.finalName current) c) ↔
      ¬ ∃ f ∈ t.ancestors x, t.isWithin f k.body = true ∧ (t.kind f).isFunction = true ∧
        ∃ p ∈ t.parameters f, t.name? p = some (k.finalName current) := by
  have ht := h.wellFormed
  have hinside := (h.mem_usesOf_iff.mp hx).1
  have hup (c : NodeId) : u.Inside x c ↔ t.Inside x c :=
    Tree.inside_iff_of_parent_eq (fun _ => h.parent_eq hs hx hattached) c
  have hup' {c : NodeId} (hc : t.Inside x c) : u.Inside c b.function ↔ t.Inside c b.function :=
    Tree.inside_iff_of_parent_eq
      (fun a ha => h.parent_eq hs hx hattached (hc.under.trans ha)) b.function
  have hbody := h.parts.body_inside_function ht
  have hpasses {c : NodeId} (hc : t.Inside c k.body) :
      ({ tree := u, framework := fw } : Source).Passes (k.finalName current) c ↔
        ({ tree := t, framework := fw } : Source).Passes (k.finalName current) c :=
    hs.carried.passes_iff ht hs.pruned (fun _ => h.stray) h.label_inside hc
  constructor
  · rintro hall ⟨f, hf, hwithin, hfunction, p, hp, hname⟩
    have hxf : t.Inside x f := ht.mem_ancestors_iff.mp hf
    rw [ht.isWithin_iff] at hwithin
    have hfb : t.Inside f k.body := by
      refine (Tree.under_iff_eq_or_inside.mp hwithin).resolve_left ?_
      rintro heq
      simp [← heq, h.parts.kind_body, Kind.isFunction] at hfunction
    have hpass := hall f ((hup f).mpr hxf) ((hup' hxf).mpr (hfb.trans hbody))
    exact ((hpasses hfb).mp hpass).2 hfunction p hp hname
  · intro hnone c hxc hcf
    rw [hup] at hxc
    rw [hup' hxc] at hcf
    by_cases hcb : t.Inside c k.body
    · -- before the edits the name was passed on, so the scope is no file
      have hpass := (h.meaning_of_use hx).2.1 c hxc hcf
      refine (hpasses hcb).mpr ⟨hpass.1, fun hfunction p hp hname => hnone ?_⟩
      refine ⟨c, ht.mem_ancestors_iff.mpr hxc, ?_, hfunction, p, hp, hname⟩
      rw [ht.isWithin_iff]
      exact hcb.under
    · have hbc : t.Under k.body c := by
        rcases Tree.under_total hxc.under hinside.under with hunder | hunder
        · rw [((Tree.under_iff_eq_or_inside.mp hunder).resolve_right hcb)]
          exact .refl
        · exact hunder
      have heq := hs.edited.kind_eq (h.parts.not_loose_of_above ht hbc)
      rcases h.parts.kind_between ht hbc hcf with hk | hk | hk <;>
        simp [Source.Passes, heq, hk, Kind.isFile, Kind.isFunction]

/-- **What a use means after the edits.** -/
theorem resolve?_iff {x : NodeId} (hx : x ∈ k.usesOf handler) (hattached : u.attached x = true) :
    ({ tree := u, framework := fw } : Source).resolve? x = some handler ↔
      ¬ k.Captures handler x (k.finalName current) := by
  have ht := h.wellFormed
  have hinside := (h.mem_usesOf_iff.mp hx).1
  have hparts := h.parts.edited ht hs.edited
  have hxf : u.Inside x b.function :=
    (Tree.inside_iff_of_parent_eq (fun _ => h.parent_eq hs hx hattached) _).mpr
      (hinside.trans (h.parts.body_inside_function ht))
  have hkind : u.kind x = .reference (k.finalName current) := by
    rw [hs.pruned.kind_eq, hs.carried.kind_eq hinside, h.label_use hx]
  have hbare : ({ tree := u, framework := fw } : Source).qualifier? x = none :=
    hs.carried.qualifier?_eq_none ht hs.pruned (fun _ => h.stray) h.label_inside hparts.kind_body
      hinside (h.meaning_of_use hx).1
  rw [Source.resolve?_eq_parameter_iff (s := { tree := u, framework := fw }) hs.edited.wellFormed
    hparts.kind_function (h.mem_parameters_after hs) hxf hkind, h.passes_iff hs hx hattached,
    h.firstNamed?_iff hs, SyncTask.Captures, h.tree_eq, and_iff_right hbare, ← not_or,
    or_left_comm]

/-- **What a use means in the end.** The children parameter stays where it has a use, and dropping
the others does not change what the use means. -/
theorem resolve?_unused_iff {x : NodeId} (hx : x ∈ k.usesOf handler) {unused : List NodeId}
    (hunused : unused = ({ tree := u, framework := fw } : Source).unused b.function k.body)
    (hattached : (unused.foldl Tree.detach u).attached x = true) :
    ({ tree := unused.foldl Tree.detach u, framework := fw } : Source).resolve? x = some handler ∧
        handler ∈ (unused.foldl Tree.detach u).parameters b.function ↔
      ¬ k.Captures handler x (k.finalName current) := by
  have ht := h.wellFormed
  have hu := hs.edited.wellFormed
  have hparts := h.parts.edited ht hs.edited
  obtain ⟨-, hunder, hnames⟩ :=
    block_of_dropUnused hu hparts.attached hparts.needBody_eq hunused
  have hthere : u.attached x = true := by
    rw [(hu.foldl_detach unused).attached_iff, (Tree.foldl_detach hu unused).2.1] at hattached
    exact hu.attached_iff.mpr (hunder _ _ hattached)
  have hinside := (h.mem_usesOf_iff.mp hx).1
  have hxb : u.Inside x k.body :=
    (Tree.inside_iff_of_parent_eq (fun _ => h.parent_eq hs hx hthere) _).mpr hinside
  rw [← h.resolve?_iff hs hx hthere, hnames x hxb.under]
  refine and_iff_left_of_imp fun hmeans => ?_
  -- the name itself is the use
  have hkind : (u.kind x).isReference = true := by
    rw [hs.pruned.kind_eq, hs.carried.kind_eq hinside, h.label_use hx]
    rfl
  obtain ⟨hleft, hused⟩ :=
    mem_parameters_iff hu hparts.attached hparts.needBody_eq hunused (h.mem_parameters_after hs)
  refine hleft.mpr (hused.mpr ⟨x, ?_, hmeans⟩)
  exact (Source.mem_namesBelow_iff hu (hparts.body_inside_function hu).lt_size).mpr
    ⟨hxb.under, hkind⟩

end

/-- **A name that no field has captures nothing**: where the children parameter keeps its name, its
uses mean it as they did. -/
theorem not_captures (hfree : Field.taken k.fields current = false) {x : NodeId}
    (hx : x ∈ k.usesOf handler) : ¬ k.Captures handler x (k.finalName current) := by
  have ht := h.wellFormed
  have hname : k.finalName current = current := by simp [SyncTask.finalName, hfree]
  obtain ⟨-, hpasses, hfirst⟩ := h.meaning_of_use hx
  have hinside := (h.mem_usesOf_iff.mp hx).1
  rw [hname, SyncTask.Captures, h.tree_eq]
  rintro (⟨p, hp, hpair, heq⟩ | ⟨f, hf, hwithin, hfunction, p, hp, heq⟩ | ⟨i, hi, f, hf, heq, -⟩)
  · have hnodup : k.parameters.Nodup := by
      rw [h.filter_parameters]
      exact (ht.nodup_children k.list).filter _
    rw [← h.parameters_eq, Source.firstNamed?_eq_some_iff hnodup h.mem_handler] at hfirst
    exact hfirst.2 p hpair heq
  · rw [ht.isWithin_iff] at hwithin
    have hff : t.Inside f b.function :=
      Relation.TransGen.trans_right hwithin (h.parts.body_inside_function ht)
    exact (hpasses f (ht.mem_ancestors_iff.mp hf) hff).2 hfunction p hp heq
  · rw [Field.taken_of_mem (List.mem_of_getElem? hf) heq] at hfree
    cases hfree

end HandlerTask

/-- **When the children parameter is kept.** After a synchronisation, a name in the block that meant
the children parameter and is still in the file means it, and the parameter is there, exactly if
nothing captures the name that the parameter has in the end. Nothing does if the parameter keeps its
name. -/
theorem synchronize_keeps_handler_iff {b : Builder} {fw : Framework} {t v : Tree} {n : Nat}
    (ht : t.WellFormed) (hrun : Change.run (b.synchronize fw) t = (.ok n, v)) :
    let s : Source := { tree := t, framework := fw }
    let after : Source := { tree := v, framework := fw }
    ∃ k, SyncTask.of s b = .ok k ∧ ∀ handler, k.handler? = some handler →
      ∃ current, t.name? handler = some current ∧
        ∀ x ∈ s.namesBelow k.body, s.resolve? x = some handler → v.attached x = true →
          (after.resolve? x = some handler ∧ handler ∈ v.parameters b.function ↔
            ¬ k.Captures handler x (k.finalName current)) ∧
          (Field.taken k.fields current = false →
            after.resolve? x = some handler ∧ handler ∈ v.parameters b.function) := by
  intro s after
  obtain ⟨k, hk⟩ := exists_task_of_run hrun
  obtain ⟨call, lambda, -, hparts, hsource, -, -, -, hparameters⟩ := SyncTask.of_eq_ok hk
  refine ⟨k, hk, fun handler hhandler => ?_⟩
  obtain ⟨current, hname⟩ : ∃ current, t.name? handler = some current := by
    have hmem : handler ∈ k.parameters := List.mem_of_find?_eq_some hhandler
    rw [hparameters] at hmem
    have hkind := Source.isParameter_of_mem (s := s) hmem
    cases hk : t.kind handler <;> simp_all [s, Kind.isParameter, Tree.name?, Kind.name?]
  refine ⟨current, hname, fun x hx hmeans hattached => ?_⟩
  have h : b.HandlerTask fw t k call lambda handler current :=
    ⟨ht, hk, hsource, hparts, hparameters, hhandler, hname⟩
  have hx : x ∈ k.usesOf handler := by
    rw [SyncTask.usesOf, hsource]
    exact List.mem_filter.mpr ⟨hx, by simpa using hmeans⟩
  obtain ⟨w, u, hs, hu⟩ := h.exists_stages
  generalize hunused : ({ tree := u, framework := fw } : Source).unused b.function k.body = unused
  rw [run_synchronize ht hk hu hunused.symm] at hrun
  obtain rfl : unused.foldl Tree.detach u = v := (Prod.mk.inj hrun).2
  have hiff := h.resolve?_unused_iff hs hx hunused.symm hattached
  exact ⟨hiff, fun hfree => hiff.mpr (h.not_captures hfree hx)⟩

/-- The statements `f(); fun g(y: Int) = f()`. -/
def nestedCalls : Draft (List NodeId) := do
  let first ← Draft.call "f" [] none
  let y ← Draft.parameter "y" (some (.simple "Int")) none
  let second ← Draft.call "f" [] none
  let inner ← Draft.function { name := some "g" } [y] second
  return [first, inner]

/-- A parameter behind the children parameter has the new name, and the use is in a function in the
block. Nothing captures it. -/
theorem synchronize_keeps_handler_iff_nested :
    let t := ((propsBuilder ["f"] [("f", "RHandler"), ("body", "Int")] nestedCalls).run
      (Tree.ofFile "F")).2
    let s : Source := { tree := t, framework := {} }
    let b : Builder := { component := { decl := 5, base := 4 }, function := 24 }
    t.WellFormed ∧ s.resolve? 15 = some 6 ∧ ∃ k v, SyncTask.of s b = .ok k ∧
      k.handler? = some 6 ∧ Field.taken k.fields "f" = true ∧ k.finalName "f" = "body" ∧
      Change.run (b.synchronize {}) t = (.ok 6, v) ∧ v.attached 15 = true ∧
      ({ tree := v, framework := {} } : Source).resolve? 15 = some 6 ∧ 6 ∈ v.parameters 24 := by
  intro t s b
  have hfacts : t.WellFormed ∧ t.name? 6 = some "f" ∧ 15 ∈ s.namesBelow 19 ∧
      s.resolve? 15 = some 6 ∧
      ((SyncTask.of s b).toOption.map fun k => decide (k.body = 19 ∧ k.handler? = some 6 ∧
        Field.taken k.fields "f" = true ∧ k.finalName "f" = "body" ∧
        ¬ k.Captures 6 15 (k.finalName "f"))) = some true := by decide +kernel
  have hresult : (Change.run (b.synchronize {}) t).1 = .ok 6 ∧
      (Change.run (b.synchronize {}) t).2.attached 15 = true := by decide +kernel
  obtain ⟨ht, hname, hmem, hmeans, htask⟩ := hfacts
  obtain ⟨k, hk, hbody, hhandler, htaken, hfinal, hfree⟩ := exists_of_checked htask
  rcases hrun : Change.run (b.synchronize {}) t with ⟨n, v⟩
  rw [hrun] at hresult
  obtain ⟨rfl, hattached⟩ : n = .ok 6 ∧ _ := hresult
  obtain ⟨k', hk', huses⟩ := synchronize_keeps_handler_iff ht hrun
  obtain rfl : k' = k := Except.ok.inj (hk'.symm.trans hk)
  obtain ⟨current, hcurrent, huse⟩ := huses 6 hhandler
  obtain rfl : current = "f" := Option.some.inj (hcurrent.symm.trans hname)
  obtain ⟨hresolve, hleft⟩ := (huse 15 (hbody ▸ hmem) hmeans hattached).1.mpr hfree
  exact ⟨ht, hmeans, k', v, hk, hhandler, htaken, hfinal, rfl, hattached, hresolve, hleft⟩

/-- The statement `f()`. -/
def singleCall : Draft (List NodeId) := do return [← Draft.call "f" [] none]

/-- **A children parameter that is lost.** A parameter in front of it has the name that it gets. Its
use comes to mean that parameter, and it is dropped for lack of a use. -/
theorem synchronize_loses_handler :
    let t := ((propsBuilder ["f"] [("body", "Int"), ("f", "RHandler")] singleCall).run
      (Tree.ofFile "F")).2
    let s : Source := { tree := t, framework := {} }
    let b : Builder := { component := { decl := 5, base := 4 }, function := 18 }
    t.WellFormed ∧ ofFunction? s 18 = some b ∧ ∃ k v, SyncTask.of s b = .ok k ∧
      k.handler? = some 8 ∧ 11 ∈ s.namesBelow k.body ∧ s.resolve? 11 = some 8 ∧
      Change.run (b.synchronize {}) t = (.ok 5, v) ∧ v.attached 11 = true ∧
      ({ tree := v, framework := {} } : Source).resolve? 11 = some 6 ∧ 8 ∉ v.parameters 18 := by
  intro t s b
  have hfacts : t.WellFormed ∧ ofFunction? s 18 = some b ∧ 11 ∈ s.namesBelow 13 ∧
      s.resolve? 11 = some 8 ∧ ((SyncTask.of s b).toOption.map fun k =>
        decide (k.body = 13 ∧ k.handler? = some 8)) = some true := by decide +kernel
  have hresult : (Change.run (b.synchronize {}) t).1 = .ok 5 ∧
      (Change.run (b.synchronize {}) t).2.attached 11 = true ∧
      ({ tree := (Change.run (b.synchronize {}) t).2, framework := {} } : Source).resolve? 11 =
        some 6 ∧
      8 ∉ (Change.run (b.synchronize {}) t).2.parameters 18 := by decide +kernel
  obtain ⟨ht, hb, hmem, hmeans, htask⟩ := hfacts
  obtain ⟨k, hk, hbody, hhandler⟩ := exists_of_checked htask
  rcases hrun : Change.run (b.synchronize {}) t with ⟨n, v⟩
  rw [hrun] at hresult
  obtain ⟨rfl, hattached, hresolve, hgone⟩ : n = .ok 5 ∧ _ := hresult
  exact ⟨ht, hb, k, v, hk, hhandler, hbody ▸ hmem, hmeans, rfl, hattached, hresolve, hgone⟩

end Builder

end ComponentAudit
