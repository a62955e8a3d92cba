import ComponentAudit.Proofs.Assign.Plain
import ComponentAudit.Proofs.Edit.Stages
import ComponentAudit.Proofs.Source.Names

set_option autoImplicit false

/-! # The order of declaration

When the parameters and the assignments for fields stand in the order in which the props declare
the fields, synchronising inserts new ones at their places. While the fields are gone through, the
place for the next parameter cuts the parameter list in two: what stands before it belongs to
fields that were gone through, and what stands behind it to the others (`Cut`). The same holds for
the statements.

Main statement: `Builder.synchronize_keeps_order`.
-/

namespace ComponentAudit

/-! ## Lists cut at an anchor -/

/-- Whether an anchor cuts a list in two parts, so that the labels in the first one are among those
that are done, in their order, and the labels in the second one among the rest. Without an anchor
the first part is empty. -/
def Cut (label : NodeId → Option String) (done rest : List String) (anchor : Option NodeId)
    (l : List NodeId) : Prop :=
  ∃ before after, l = before ++ after ∧ (before.filterMap label).Sublist done ∧
    (after.filterMap label).Sublist rest ∧ before.getLast? = anchor

/-- A list without repetitions is cut in one way only at each of its members. -/
theorem eq_of_getLast?_eq {before after before' after' : List NodeId}
    (hnodup : (before ++ after).Nodup) (heq : before ++ after = before' ++ after')
    (hlast : before.getLast? = before'.getLast?) : before = before' ∧ after = after' := by
  cases hx : before.getLast? with
  | none =>
      obtain rfl := List.getLast?_eq_none_iff.mp hx
      obtain rfl := List.getLast?_eq_none_iff.mp (hlast.symm.trans hx)
      exact ⟨rfl, heq⟩
  | some x =>
      obtain ⟨init, rfl⟩ := List.getLast?_eq_some_iff.mp hx
      obtain ⟨init', rfl⟩ := List.getLast?_eq_some_iff.mp (hlast.symm.trans hx)
      simp only [List.append_assoc, List.singleton_append] at hnodup heq
      obtain ⟨-, hafter, hdisjoint⟩ := List.nodup_append.mp hnodup
      have hinit : x ∉ init := fun hmem => hdisjoint x hmem x List.mem_cons_self rfl
      obtain ⟨rfl, -, rfl⟩ :=
        (List.append_cons_inj_of_notMem hinit (List.nodup_cons.mp hafter).1).mp heq
      exact ⟨rfl, rfl⟩

namespace Cut

variable {label label' : NodeId → Option String} {done rest : List String} {anchor : Option NodeId}
  {l l' : List NodeId} {name : String}

theorem start (h : (l.filterMap label).Sublist rest) : Cut label [] rest none l :=
  ⟨[], l, rfl, .refl _, h, rfl⟩

theorem mono (h : Cut label done rest anchor l) : Cut label (done ++ [name]) rest anchor l := by
  obtain ⟨before, after, hl, hdone, hrest, hlast⟩ := h
  exact ⟨before, after, hl, hdone.trans (List.sublist_append_left ..), hrest, hlast⟩

theorem congr (h : Cut label done rest anchor l) (hlabel : ∀ x ∈ l, label' x = label x) :
    Cut label' done rest anchor l := by
  obtain ⟨before, after, rfl, hdone, hrest, hlast⟩ := h
  simp only [List.mem_append] at hlabel
  refine ⟨before, after, rfl, ?_, ?_, hlast⟩
  · rwa [List.filterMap_congr fun x hx => hlabel x (.inl hx)]
  · rwa [List.filterMap_congr fun x hx => hlabel x (.inr hx)]

/-- Once nothing is left, the whole list is in order. -/
theorem sublist (h : Cut label done [] anchor l) : (l.filterMap label).Sublist done := by
  obtain ⟨before, after, rfl, hdone, hrest, -⟩ := h
  rw [List.filterMap_append, List.sublist_nil.mp hrest, List.append_nil]
  exact hdone

/-- **Passing a member** whose label is the next one. -/
theorem pass {x : NodeId} (h : Cut label done (name :: rest) anchor l) (hdone : name ∉ done)
    (hrest : name ∉ rest) (hx : x ∈ l) (hlabel : label x = some name) :
    Cut label (done ++ [name]) rest (some x) l := by
  obtain ⟨before, after, rfl, hbefore, hafter, -⟩ := h
  -- the member is in the second part, and no label stands before it there
  have hmem : x ∈ after := by
    refine (List.mem_append.mp hx).resolve_left fun hx => hdone ?_
    exact hbefore.subset (List.mem_filterMap.mpr ⟨x, hx, hlabel⟩)
  obtain ⟨first, second, rfl⟩ := List.append_of_mem hmem
  rw [List.filterMap_append, List.filterMap_cons_some hlabel] at hafter
  have hfirst : first.filterMap label = [] := by
    cases hlabels : first.filterMap label with
    | nil => rfl
    | cons other labels =>
        rw [hlabels, List.cons_append] at hafter
        refine absurd ?_ hrest
        rcases List.sublist_cons_iff.mp hafter with hsub | ⟨tail, htail, hsub⟩
        · exact hsub.subset (by simp)
        · refine hsub.subset ?_
          rw [← (List.cons.inj htail).2]
          simp
  rw [hfirst, List.nil_append] at hafter
  refine ⟨before ++ first ++ [x], second, by simp, ?_, List.cons_sublist_cons.mp hafter, by simp⟩
  simpa [hfirst, hlabel] using hbefore.append (List.Sublist.refl [name])

/-- **Inserting behind the anchor** a member that gets the label, and others without a label. -/
theorem insert {x : NodeId} {others : List NodeId} (h : Cut label done rest anchor l)
    (hnodup : l.Nodup) (hins : InsertedAfter anchor (x :: others) l l')
    (hlabel : label x = some name) (hothers : ∀ y ∈ others, label y = none) :
    Cut label (done ++ [name]) rest (some x) l' := by
  obtain ⟨before, after, rfl, hdone, hrest, hlast⟩ := h
  obtain ⟨before', after', hl, rfl, hlast'⟩ := hins
  have hanchor : before.getLast? = before'.getLast? := by
    rw [hlast', hlast]
    cases anchor with
    | none => rfl
    | some a =>
        have hmem : a ∈ before ++ after := List.mem_append_left _ (List.mem_of_getLast? hlast)
        simp [Option.filter, List.mem_append.mp hmem]
  obtain ⟨rfl, rfl⟩ := eq_of_getLast?_eq hnodup hl hanchor
  refine ⟨before ++ [x], others ++ after, by simp, ?_, ?_, by simp⟩
  · simpa [hlabel] using hdone.append (List.Sublist.refl [name])
  · rwa [List.filterMap_append, List.filterMap_eq_nil_iff.mpr hothers, List.nil_append]

end Cut

/-! ## Anchors of plans -/

namespace Edit

theorem length_outcome (t : Tree) (plan : Plan) :
    (outcome t plan).1.length = plan.insertions := by
  induction plan using List.reverseRecOn with
  | nil => rfl
  | append_singleton plan e ih =>
      have hone : ((e.perform (outcome t plan).1).run (outcome t plan).2).1.toList.length =
          if e.inserts then 1 else 0 := by
        cases e <;> rfl
      rw [outcome_concat, step, List.length_append, ih, hone, Plan.insertions, Plan.insertions,
        List.countP_append, List.countP_singleton]

end Edit

/-- Whether the anchor of a plan, once the edits of the plan are made, cuts the children of a node
in what is done and the rest. -/
def Track (t : Tree) (label : Tree → NodeId → Option String) (site : NodeId) (plan : Plan)
    (anchor : Option Anchor) (done rest : List String) : Prop :=
  ∃ n : Option NodeId, anchor.map (·.node? (Edit.outcome t plan).1) = n.map some ∧
    Cut (label (Edit.outcome t plan).2) done rest n ((Edit.outcome t plan).2.children site)

namespace Track

variable {t : Tree} {label : Tree → NodeId → Option String} {site : NodeId} {plan : Plan}
  {anchor : Option Anchor} {done rest : List String} {name : String} {e : Edit}

theorem mono (h : Track t label site plan anchor done rest) :
    Track t label site plan anchor (done ++ [name]) rest := by
  obtain ⟨n, hn, hcut⟩ := h
  exact ⟨n, hn, hcut.mono⟩

theorem pass {x : NodeId} (h : Track t label site plan anchor done (name :: rest))
    (hdone : name ∉ done) (hrest : name ∉ rest)
    (hx : x ∈ (Edit.outcome t plan).2.children site)
    (hlabel : label (Edit.outcome t plan).2 x = some name) :
    Track t label site plan (some (.existing x)) (done ++ [name]) rest := by
  obtain ⟨n, -, hcut⟩ := h
  exact ⟨some x, rfl, hcut.pass hdone hrest hx hlabel⟩

/-- The node of an anchor stays the same when more is inserted. -/
theorem node?_append {created new : List NodeId} {n : Option NodeId}
    (h : anchor.map (·.node? created) = n.map some) :
    anchor.map (·.node? (created ++ new)) = n.map some := by
  rw [← h]
  refine Option.map_congr fun a ha => ?_
  cases a with
  | existing m => rfl
  | pending i =>
      obtain rfl := ha
      obtain ⟨m, -, hm⟩ := Option.map_eq_some_iff.mp h.symm
      exact (List.getElem?_append_left (List.getElem?_eq_some_iff.mp hm.symm).1)

/-- An edit elsewhere does not touch the anchor. -/
theorem keep (h : Track t label site plan anchor done rest)
    (hchildren : (Edit.outcome t (plan ++ [e])).2.children site =
      (Edit.outcome t plan).2.children site)
    (hlabel : ∀ x ∈ (Edit.outcome t plan).2.children site,
      label (Edit.outcome t (plan ++ [e])).2 x = label (Edit.outcome t plan).2 x) :
    Track t label site (plan ++ [e]) anchor done rest := by
  obtain ⟨n, hn, hcut⟩ := h
  refine ⟨n, ?_, ?_⟩
  · rw [Edit.outcome_concat, Edit.step]
    exact node?_append hn
  · rw [hchildren]
    exact hcut.congr hlabel

/-- An edit that inserts behind the anchor moves the anchor. -/
theorem insert {x : NodeId} {others : List NodeId} (h : Track t label site plan anchor done rest)
    (hcreated : (Edit.outcome t (plan ++ [e])).1 = (Edit.outcome t plan).1 ++ [x])
    (hnodup : ((Edit.outcome t plan).2.children site).Nodup)
    (hins : InsertedAfter (anchor.bind (·.node? (Edit.outcome t plan).1)) (x :: others)
      ((Edit.outcome t plan).2.children site) ((Edit.outcome t (plan ++ [e])).2.children site))
    (hlabel : ∀ y ∈ (Edit.outcome t plan).2.children site,
      label (Edit.outcome t (plan ++ [e])).2 y = label (Edit.outcome t plan).2 y)
    (hx : label (Edit.outcome t (plan ++ [e])).2 x = some name)
    (hothers : ∀ y ∈ others, label (Edit.outcome t (plan ++ [e])).2 y = none) :
    Track t label site (plan ++ [e]) (some (.pending plan.insertions)) (done ++ [name]) rest := by
  obtain ⟨n, hn, hcut⟩ := h
  have hanchor : anchor.bind (·.node? (Edit.outcome t plan).1) = n := by
    cases anchor <;> cases n <;> simp_all
  rw [hanchor] at hins
  refine ⟨some x, ?_, (hcut.congr hlabel).insert hnodup hins hx hothers⟩
  rw [hcreated, ← Edit.length_outcome t plan]
  simp [Anchor.node?]

end Track

/-! ## What stands for a field -/

/-- Whether the names that are names of fields stand in the order of declaration, each of them at
most once. -/
def Field.InOrder (fields : List Field) (names : List String) : Prop :=
  (names.filter (Field.taken fields)).Sublist (fields.filterMap (·.name))

instance (fields : List Field) (names : List String) : Decidable (Field.InOrder fields names) :=
  inferInstanceAs (Decidable (List.Sublist _ _))

namespace Tree

variable {u v : Tree} {fields : List Field} {base : String} {list body : NodeId}

/-- The field that a statement assigns. -/
def storedField? (fields : List Field) (base : String) (t : Tree) (x : NodeId) : Option String :=
  (t.storedMember? base x).filter (Field.taken fields)

/-- The field whose name a parameter has. -/
def parameterField? (fields : List Field) (t : Tree) (p : NodeId) : Option String :=
  if (t.kind p).isParameter then (t.name? p).filter (Field.taken fields) else none

theorem kind_of_storedMember? {t : Tree} {x : NodeId} {name : String}
    (h : t.storedMember? base x = some name) : t.kind x = .assign :=
  (memberStore?_eq_some_iff.mp (storedMember?_eq_some_iff.mp h)).1

theorem mem_significant_of_storedMember? {t : Tree} {x : NodeId} {name : String}
    (hx : x ∈ t.children body) (h : t.storedMember? base x = some name) :
    x ∈ t.significant body :=
  List.mem_filter.mpr ⟨hx, by simp [kind_of_storedMember? h, Kind.isTrivia]⟩

theorem storedField?_eq_some_iff {t : Tree} {x : NodeId} {name : String} :
    storedField? fields base t x = some name ↔
      t.storedMember? base x = some name ∧ Field.taken fields name = true :=
  Option.filter_eq_some_iff

theorem parameterField?_eq_some_iff {t : Tree} {p : NodeId} {name : String} :
    parameterField? fields t p = some name ↔ (t.kind p).isParameter = true ∧
      t.name? p = some name ∧ Field.taken fields name = true := by
  rw [parameterField?, Option.ite_none_right_eq_some, Option.filter_eq_some_iff]

theorem filterMap_storedField? (fields : List Field) (base : String) (t : Tree) (body : NodeId) :
    (t.children body).filterMap (storedField? fields base t) =
      ((t.significant body).filterMap (t.storedMember? base)).filter (Field.taken fields) := by
  rw [List.filter_filterMap, significant, List.filterMap_filter]
  refine List.filterMap_congr fun x _ => ?_
  cases hx : t.storedMember? base x with
  | none => simp [storedField?, hx]
  | some name => simp [storedField?, hx, kind_of_storedMember? hx, Kind.isTrivia]

theorem filterMap_parameterField? (fields : List Field) {t : Tree} {function list : NodeId}
    (h : t.parameterList? function = some list) :
    (t.children list).filterMap (parameterField? fields t) =
      ((t.parameters function).filterMap t.name?).filter (Field.taken fields) := by
  rw [List.filter_filterMap, parameters, h, List.filterMap_filter]
  refine List.filterMap_congr fun p _ => ?_
  unfold parameterField?
  cases (t.kind p).isParameter <;> simp

theorem Kept.storedField?_eq (h : u.Kept list body v) (hu : u.WellFormed) {x : NodeId}
    (hx : x ∈ u.children body) : storedField? fields base v x = storedField? fields base u x := by
  rw [storedField?, (h.statement x hx).storedMember?_eq hu, storedField?]

theorem Kept.parameterField?_eq (h : u.Kept list body v) {p : NodeId} (hp : p ∈ u.children list) :
    parameterField? fields v p = parameterField? fields u p := by
  rw [parameterField?, parameterField?, name?, name?, h.parameter p hp]

end Tree

namespace Track

variable {b : Builder} {t : Tree} {fields : List Field} {base name : String} {plan : Plan}
  {list call lambda body : NodeId} {anchor : Option Anchor} {done rest : List String} {e : Edit}
  (hparts : b.Parts t list call lambda body) (ht : t.WellFormed)
  (hplan : ∀ e ∈ plan, e.Supplies t list body)

include hparts ht hplan

theorem keep_statements (h : Track t (Tree.storedField? fields base) body plan anchor done rest)
    (he : e.Supplies t list body)
    (hother : ∀ after receiver field, e ≠ .addAssignment body after receiver field) :
    Track t (Tree.storedField? fields base) body (plan ++ [e]) anchor done rest := by
  have hs := Edit.supplied_outcome hparts ht hplan
  obtain ⟨hkept, heffect⟩ := Edit.effect_concat hparts ht hplan he hs
  exact h.keep (heffect.children_body_eq hother)
    fun x hx => hkept.storedField?_eq hs.kept.wellFormed hx

theorem keep_parameters (h : Track t (Tree.parameterField? fields) list plan anchor done rest)
    (he : e.Supplies t list body)
    (hother : ∀ after name type, e ≠ .addParameter list after name type) :
    Track t (Tree.parameterField? fields) list (plan ++ [e]) anchor done rest := by
  have hs := Edit.supplied_outcome hparts ht hplan
  obtain ⟨hkept, heffect⟩ := Edit.effect_concat hparts ht hplan he hs
  exact h.keep (heffect.children_list_eq hother) fun p hp => hkept.parameterField?_eq hp

theorem insert_statement (h : Track t (Tree.storedField? fields base) body plan anchor done rest)
    (hname : Field.taken fields name = true) :
    Track t (Tree.storedField? fields base) body
      (plan ++ [.addAssignment body anchor base name]) (some (.pending plan.insertions))
      (done ++ [name]) rest := by
  have hs := Edit.supplied_outcome hparts ht hplan
  have he : (Edit.addAssignment body anchor base name).Supplies t list body := rfl
  obtain ⟨hkept, heffect⟩ := Edit.effect_concat hparts ht hplan he hs
  obtain ⟨id, blank, hcreated, hstore, hblank, hins⟩ := heffect.exists_statement
  refine h.insert hcreated (hs.kept.wellFormed.nodup_children body) hins
    (fun x hx => hkept.storedField?_eq hs.kept.wellFormed hx) ?_ fun y hy => ?_
  · simp [Tree.storedField?, Tree.storedMember?_eq_some_iff.mpr hstore, hname]
  · obtain rfl := List.mem_singleton.mp hy
    simp [Tree.storedField?, Tree.storedMember?, Tree.memberStore?, hblank]

theorem insert_parameter (h : Track t (Tree.parameterField? fields) list plan anchor done rest)
    (type : Option TypeExpr) (hname : Field.taken fields name = true) :
    Track t (Tree.parameterField? fields) list
      (plan ++ [.addParameter list anchor name type]) (some (.pending plan.insertions))
      (done ++ [name]) rest := by
  have hs := Edit.supplied_outcome hparts ht hplan
  have he : (Edit.addParameter list anchor name type).Supplies t list body := rfl
  obtain ⟨hkept, heffect⟩ := Edit.effect_concat hparts ht hplan he hs
  obtain ⟨id, hcreated, hkind, hins⟩ := heffect.exists_parameter
  refine h.insert hcreated (hs.kept.wellFormed.nodup_children list) hins
    (fun p hp => hkept.parameterField?_eq hp) ?_ fun y hy => absurd hy List.not_mem_nil
  simp [Tree.parameterField?, Tree.name?, hkind, Kind.isParameter, Kind.name?, hname]

end Track

/-- At the start, when only types have changed, nothing is done. -/
theorem Track.start {t : Tree} {label : Tree → NodeId → Option String} {site : NodeId} {plan : Plan}
    {rest : List String} (h : ((t.children site).filterMap (label t)).Sublist rest)
    (hkeep : ∀ (before : Plan) (e : Edit), before ⊆ plan → e ∈ plan →
      Track t label site before none [] rest → Track t label site (before ++ [e]) none [] rest) :
    Track t label site plan none [] rest := by
  induction plan using List.reverseRecOn with
  | nil => exact ⟨none, rfl, .start h⟩
  | append_singleton plan e ih =>
      refine hkeep plan e (List.subset_append_left ..) (by simp)
        (ih fun before e' hbefore he' => ?_)
      exact hkeep before e' (fun _ hmem => List.mem_append_left _ (hbefore hmem))
        (List.mem_append_left _ he')

theorem Tree.WellFormed.statementAround?_eq {t : Tree} (ht : t.WellFormed) {body x : NodeId}
    (hx : x ∈ t.children body) : t.statementAround? body x = some x := by
  have hparent := ht.mem_children_iff.mp hx
  simp [statementAround?, Tree.lineage, hparent]

namespace SyncTask

/-- Whether every assignment of a field that has a parameter of its name, or that stores a
parameter, stores the parameter of its name. -/
def StoresOwn (k : SyncTask) : Prop :=
  ∀ x ∈ k.source.tree.significant k.body,
    ∀ name ∈ k.source.tree.storedMember? k.source.framework.attrsMember x,
      Field.taken k.fields name = true → ∀ ops ∈ k.source.tree.operands? x,
        k.source.tree.kind ops.2 = .reference name ∨ ∀ p ∈ k.parameters,
          ∀ own ∈ k.source.tree.name? p,
            own ≠ name ∧ k.source.tree.kind ops.2 ≠ .reference own

instance (k : SyncTask) : Decidable k.StoresOwn :=
  inferInstanceAs (Decidable (∀ x ∈ k.source.tree.significant k.body, _))

end SyncTask

namespace Builder.StraightTask

variable {b : Builder} {fw : Framework} {t : Tree} {k : SyncTask} {call lambda : NodeId}
  {props : TypeExpr} (h : b.StraightTask fw t k call lambda props)

include h

/-- A field that is assigned moves the anchors: behind the statement that assigns it, and behind the
parameter that is stored. -/
theorem exists_planField_eq {f : Field} {name : String} (hf : f ∈ k.fields)
    (hname : f.name = some name) {x : NodeId} (hx : x ∈ t.significant k.body)
    (hstored : t.storedMember? fw.attrsMember x = some name) (p : SyncTask.Progress) :
    ∃ e ∈ t.significant k.body, t.storedMember? fw.attrsMember e = some name ∧
      k.planField p f = { p with
        parameter := match ({ tree := t, framework := fw } : Source).storedParameter? e with
          | some q => if q ∈ k.parameters then some (.existing q) else p.parameter
          | none => p.parameter
        statement := some (.existing e) } := by
  cases hget : k.state.get? f with
  | none => exact absurd hstored ((h.get?_eq_none_iff hf hname).mp hget x hx)
  | some a =>
      obtain ⟨e, he, hmember, rfl⟩ := h.exists_store hf hname hget
      refine ⟨e, he, hmember, ?_⟩
      have hmem := Tree.mem_children_of_significant he
      simp only [SyncTask.planField, hname, hget, SyncTask.passField, Source.assignmentAt,
        h.tree_eq, Option.bind_some, h.wellFormed.statementAround?_eq hmem, Option.map_some]
      cases ({ tree := t, framework := fw } : Source).storedParameter? e <;> rfl

/-- A field that is not assigned is supplied with a parameter and a statement. -/
theorem planField_eq {f : Field} {name : String} (hf : f ∈ k.fields) (hname : f.name = some name)
    (hmissing : ∀ e ∈ t.significant k.body, t.storedMember? fw.attrsMember e ≠ some name)
    (p : SyncTask.Progress) : k.planField p f =
      { k.supplyParameter p f name with
        plan := (k.supplyParameter p f name).plan ++
          [.addAssignment k.body (k.supplyParameter p f name).statement fw.attrsMember name]
        statement := some (.pending (k.supplyParameter p f name).plan.insertions) } := by
  have hget := (h.get?_eq_none_iff hf hname).mpr hmissing
  simp only [SyncTask.planField, hname, hget, SyncTask.supplyStatement, Plan.push, Edit.inserts,
    h.attrsMember_eq]
  rfl

/-! ## Going through the fields -/

/-- **The run**: an anchor that is kept from field to field, those that have something at the node
already and those that have not, leaves all of them in order. -/
theorem track_front {label : Tree → NodeId → Option String} {site : NodeId}
    (anchor : SyncTask.Progress → Option Anchor) (hanchor : ∀ plan, anchor { plan } = none)
    (hstart : ((t.children site).filterMap (label t)).Sublist (k.fields.filterMap (·.name)))
    (hretype : ∀ plan p type rest, (∀ e ∈ plan, e.Supplies t k.list k.body) →
      p ∈ t.children k.list → Track t label site plan none [] rest →
        Track t label site (plan ++ [.retype p type]) none [] rest)
    (hpass : ∀ p f name done rest, (∀ e ∈ (k.planField p f).plan, e.Supplies t k.list k.body) →
      f ∈ k.fields → f.name = some name → name ∉ done → name ∉ rest →
      (∃ x ∈ t.children site, label t x = some name) →
      Track t label site p.plan (anchor p) done (name :: rest) →
        Track t label site (k.planField p f).plan (anchor (k.planField p f)) (done ++ [name]) rest)
    (hsupply : ∀ p f name done rest, (∀ e ∈ (k.planField p f).plan, e.Supplies t k.list k.body) →
      f ∈ k.fields → f.name = some name → (∀ x ∈ t.children site, label t x ≠ some name) →
      Track t label site p.plan (anchor p) done rest →
        Track t label site (k.planField p f).plan (anchor (k.planField p f)) (done ++ [name])
          rest) :
    ∃ last, Track t label site k.front last (k.fields.filterMap (·.name)) [] := by
  let known (name : String) : Bool := decide (name ∈ (t.children site).filterMap (label t))
  have hrun := SyncTask.foldl_planField (k := k) h.renameHandler_eq_nil
    (motive := fun p rest => ∃ done, done ++ rest.filterMap (·.name) = k.fields.filterMap (·.name) ∧
      Track t label site p.plan (anchor p) done ((rest.filterMap (·.name)).filter known)) ?_ ?_
  · obtain ⟨⟨done, hdone, htrack⟩, -⟩ := hrun
    rw [List.filterMap_nil, List.append_nil] at hdone
    exact ⟨_, hdone ▸ htrack⟩
  · refine ⟨[], rfl, ?_⟩
    have hwants : ∀ e ∈ k.retypeOutdated, k.Wants e := fun e he => by
      obtain ⟨o, ho, hp, type, htype, rfl⟩ := SyncTask.mem_retypeOutdated.mp he
      exact .outdated ho hp htype
    have hknown : ((t.children site).filterMap (label t)).filter known =
        (t.children site).filterMap (label t) := List.filter_eq_self.mpr (by simp [known])
    rw [hanchor]
    refine .start (hknown ▸ hstart.filter known) fun before e hbefore he hb => ?_
    obtain ⟨o, ho, hp, type, htype, rfl⟩ := SyncTask.mem_retypeOutdated.mp he
    exact hretype before o.parameter type _ (fun e he => h.supplies hwants e (hbefore he))
      (h.mem_parameters hp).1 hb
  · rintro p f rest hwants hf ⟨done, hsplit, htrack⟩
    have hplan := h.supplies hwants
    cases hname : f.name with
    | none =>
        rw [List.filterMap_cons_none hname] at hsplit htrack
        have hsame : k.planField p f = p := by simp [SyncTask.planField, hname]
        exact ⟨done, hsplit, hsame.symm ▸ htrack⟩
    | some name =>
        rw [List.filterMap_cons_some hname] at hsplit htrack
        have hnodup := h.straight.nodup
        rw [← hsplit] at hnodup
        obtain ⟨-, hrest, hdisjoint⟩ := List.nodup_append.mp hnodup
        refine ⟨done ++ [name], by simpa using hsplit, ?_⟩
        by_cases hx : ∃ x ∈ t.children site, label t x = some name
        · rw [List.filter_cons_of_pos (by simpa [known] using hx)] at htrack
          exact hpass p f name done _ hplan hf hname
            (fun hmem => hdisjoint name hmem name List.mem_cons_self rfl)
            (fun hmem => (List.nodup_cons.mp hrest).1 (List.mem_filter.mp hmem).1) hx htrack
        · rw [List.filter_cons_of_neg (by simpa [known] using hx)] at htrack
          exact hsupply p f name done _ hplan hf hname (fun x hmem heq => hx ⟨x, hmem, heq⟩) htrack

/-! ## The order of the statements -/

theorem track_statements_supplyParameter {p : SyncTask.Progress} {f : Field} {name : String}
    {done rest : List String}
    (hplan : ∀ e ∈ (k.supplyParameter p f name).plan, e.Supplies t k.list k.body)
    (htrack : Track t (Tree.storedField? k.fields fw.attrsMember) k.body p.plan p.statement done
      rest) :
    Track t (Tree.storedField? k.fields fw.attrsMember) k.body (k.supplyParameter p f name).plan
      (k.supplyParameter p f name).statement done rest := by
  rcases k.supplyParameter_cases p f name with
    ⟨q, -, ⟨-, heq⟩ | ⟨type, written, -, -, -, heq⟩⟩ | ⟨-, heq⟩
  · rwa [heq]
  · rw [heq] at hplan ⊢
    exact htrack.keep_statements h.parts h.wellFormed (fun e he => hplan e (by simp [he]))
      (hplan _ (by simp)) (by simp)
  · rw [heq] at hplan ⊢
    exact htrack.keep_statements h.parts h.wellFormed (fun e he => hplan e (by simp [he]))
      (hplan _ (by simp)) (by simp)

/-- The statements that assign fields are in order when the first stage ends. -/
theorem track_statements (hbefore : Field.InOrder k.fields
      ((t.significant k.body).filterMap (t.storedMember? fw.attrsMember))) :
    ∃ last, Track t (Tree.storedField? k.fields fw.attrsMember) k.body k.front last
      (k.fields.filterMap (·.name)) [] := by
  have ht := h.wellFormed
  refine h.track_front (·.statement) (fun _ => rfl) ?_ ?_ ?_ ?_
  · rw [Tree.filterMap_storedField?]
    exact hbefore
  · exact fun plan p type rest hplan hp htrack =>
      htrack.keep_statements h.parts ht hplan hp (by simp)
  · rintro p f name done rest hplan hf hname hdone hrest ⟨x, hx, hlabel⟩ htrack
    obtain ⟨hstored, htaken⟩ := Tree.storedField?_eq_some_iff.mp hlabel
    obtain ⟨e, he, hmember, heq⟩ := h.exists_planField_eq hf hname
      (Tree.mem_significant_of_storedMember? hx hstored) hstored p
    have hmem := Tree.mem_children_of_significant he
    rw [heq] at hplan ⊢
    have hs := Edit.supplied_outcome h.parts ht hplan
    refine htrack.pass hdone hrest (hs.statements.subset hmem) ?_
    rw [hs.kept.storedField?_eq ht hmem]
    exact Tree.storedField?_eq_some_iff.mpr ⟨hmember, htaken⟩
  · intro p f name done rest hplan hf hname hnone htrack
    have htaken := Field.taken_of_mem hf hname
    have heq := h.planField_eq hf hname (p := p) fun e he hmember =>
      hnone e (Tree.mem_children_of_significant he)
        (Tree.storedField?_eq_some_iff.mpr ⟨hmember, htaken⟩)
    rw [heq] at hplan ⊢
    have hfirst : ∀ e ∈ (k.supplyParameter p f name).plan, e.Supplies t k.list k.body :=
      fun e he => hplan e (List.mem_append_left _ he)
    exact (h.track_statements_supplyParameter hfirst htrack).insert_statement h.parts ht hfirst
      htaken

/-! ## The order of the parameters -/

/-- The parameter that a field finds is a parameter of its name. -/
theorem firstNamed?_spec {name : String} {q : NodeId} (htaken : Field.taken k.fields name = true)
    (hq : ({ tree := t, framework := fw } : Source).firstNamed? name (t.parameters b.function) =
      some q) :
    q ∈ k.parameters ∧ t.name? q = some name ∧ t.parameterField? k.fields q = some name := by
  have hmem : q ∈ k.parameters := h.parameters_eq ▸ List.mem_of_find?_eq_some hq
  have hname : t.name? q = some name := by simpa using List.find?_some hq
  exact ⟨hmem, hname,
    Tree.parameterField?_eq_some_iff.mpr ⟨(h.mem_parameters hmem).2, hname, htaken⟩⟩

theorem exists_firstNamed? {name : String} {x : NodeId} (hx : x ∈ t.children k.list)
    (hlabel : t.parameterField? k.fields x = some name) :
    ∃ q, ({ tree := t, framework := fw } : Source).firstNamed? name (t.parameters b.function) =
      some q := by
  obtain ⟨hparameter, hname, -⟩ := Tree.parameterField?_eq_some_iff.mp hlabel
  have hmem : x ∈ t.parameters b.function := by
    rw [Tree.parameters, h.parts.list_eq]
    exact List.mem_filter.mpr ⟨hx, hparameter⟩
  exact Option.isSome_iff_exists.mp (List.find?_isSome.mpr ⟨x, hmem, by simp [hname]⟩)

/-- Where no parameter has the name, the field finds none. -/
theorem firstNamed?_eq_none {name : String} (htaken : Field.taken k.fields name = true)
    (hnone : ∀ p ∈ t.children k.list, t.parameterField? k.fields p ≠ some name) :
    ({ tree := t, framework := fw } : Source).firstNamed? name (t.parameters b.function) =
      none := by
  refine Option.eq_none_iff_forall_ne_some.mpr fun q hq => ?_
  obtain ⟨hmem, -, hlabel⟩ := h.firstNamed?_spec htaken hq
  exact hnone q (h.mem_parameters hmem).1 hlabel

theorem pass_parameter {plan : Plan} {anchor : Option Anchor} {done rest : List String}
    {name : String} {q : NodeId} (hplan : ∀ e ∈ plan, e.Supplies t k.list k.body)
    (htrack : Track t (Tree.parameterField? k.fields) k.list plan anchor done (name :: rest))
    (hdone : name ∉ done) (hrest : name ∉ rest) (hq : q ∈ t.children k.list)
    (hlabel : t.parameterField? k.fields q = some name) :
    Track t (Tree.parameterField? k.fields) k.list plan (some (.existing q)) (done ++ [name])
      rest := by
  have hs := Edit.supplied_outcome h.parts h.wellFormed hplan
  refine htrack.pass hdone hrest (hs.parameters.subset hq) ?_
  rw [hs.kept.parameterField?_eq hq, hlabel]

/-- What a statement stores when its field has a parameter: this parameter. -/
theorem storedParameter?_of_own (hown : k.StoresOwn) {name : String} {e q : NodeId}
    (htaken : Field.taken k.fields name = true) (he : e ∈ t.significant k.body)
    (hmember : t.storedMember? fw.attrsMember e = some name)
    (hq : ({ tree := t, framework := fw } : Source).firstNamed? name (t.parameters b.function) =
      some q) :
    ({ tree := t, framework := fw } : Source).storedParameter? e = some q := by
  obtain ⟨hmem, hname, -⟩ := h.firstNamed?_spec htaken hq
  obtain ⟨hk, place, value, -, -, ho, -⟩ :=
    Tree.memberStore?_eq_some_iff.mp (Tree.storedMember?_eq_some_iff.mp hmember)
  unfold SyncTask.StoresOwn at hown
  rw [h.source_eq] at hown
  rcases hown e he name hmember htaken (place, value) ho with hvalue | hother
  · exact h.parts.storedParameter?_eq (s := { tree := t, framework := fw }) h.wellFormed
      (Tree.mem_children_of_significant he) hk ho hvalue hq
  · exact absurd rfl (hother q hmem name hname).1

/-- What a statement stores when its field has no parameter: none of the function's parameters. -/
theorem not_storedParameter?_of_own (hown : k.StoresOwn) {name : String} {e q : NodeId}
    (htaken : Field.taken k.fields name = true) (he : e ∈ t.significant k.body)
    (hmember : t.storedMember? fw.attrsMember e = some name)
    (hnone : ({ tree := t, framework := fw } : Source).firstNamed? name (t.parameters b.function) =
      none)
    (hq : ({ tree := t, framework := fw } : Source).storedParameter? e = some q) :
    q ∉ k.parameters := by
  intro hmem
  obtain ⟨place, value, own, ho, hvalue, -, -, hname⟩ := Source.exists_of_storedParameter? hq
  unfold SyncTask.StoresOwn at hown
  rw [h.source_eq] at hown
  rcases hown e he name hmember htaken (place, value) ho with hname' | hother
  · obtain rfl : own = name := by simpa [hvalue] using hname'
    exact List.find?_eq_none.mp hnone q (h.parameters_eq ▸ hmem) (by simp [hname])
  · exact (hother q hmem own hname).2 hvalue

/-- A field that is not assigned moves the anchor behind the parameter that it finds. -/
theorem track_parameters_found {p : SyncTask.Progress} {f : Field} {name : String}
    {done rest : List String} {q : NodeId}
    (hplan : ∀ e ∈ (k.supplyParameter p f name).plan, e.Supplies t k.list k.body)
    (hq : k.existing? name = some q) (hqlist : q ∈ t.children k.list)
    (hqlabel : t.parameterField? k.fields q = some name) (hdone : name ∉ done)
    (hrest : name ∉ rest)
    (htrack : Track t (Tree.parameterField? k.fields) k.list p.plan p.parameter done
      (name :: rest)) :
    Track t (Tree.parameterField? k.fields) k.list (k.supplyParameter p f name).plan
      (k.supplyParameter p f name).parameter (done ++ [name]) rest := by
  rcases k.supplyParameter_cases p f name with
    ⟨q', hq', ⟨-, heq⟩ | ⟨type, written, -, -, -, heq⟩⟩ | ⟨hnone, -⟩
  · obtain rfl : q = q' := Option.some.inj (hq.symm.trans hq')
    rw [heq] at hplan ⊢
    exact h.pass_parameter hplan htrack hdone hrest hqlist hqlabel
  · obtain rfl : q = q' := Option.some.inj (hq.symm.trans hq')
    rw [heq] at hplan ⊢
    have he := hplan (.retype q type) (by simp)
    have hkept := htrack.keep_parameters h.parts h.wellFormed
      (fun e he => hplan e (by simp [he])) he (by simp)
    exact h.pass_parameter hplan hkept hdone hrest hqlist hqlabel
  · rw [hq] at hnone
    cases hnone

/-- The parameters that have names of fields are in order when the first stage ends, if assignments
store the parameters of their names. -/
theorem track_parameters (hown : k.StoresOwn) (hbefore : Field.InOrder k.fields
      ((t.parameters b.function).filterMap t.name?)) :
    ∃ last, Track t (Tree.parameterField? k.fields) k.list k.front last
      (k.fields.filterMap (·.name)) [] := by
  have ht := h.wellFormed
  refine h.track_front (·.parameter) (fun _ => rfl) ?_ ?_ ?_ ?_
  · rw [Tree.filterMap_parameterField? k.fields h.parts.list_eq]
    exact hbefore
  · exact fun plan p type rest hplan hp htrack =>
      htrack.keep_parameters h.parts ht hplan hp (by simp)
  · -- the field has a parameter, and the anchor goes behind it
    rintro p f name done rest hplan hf hname hdone hrest ⟨x, hx, hlabel⟩ htrack
    have htaken := Field.taken_of_mem hf hname
    obtain ⟨q, hq⟩ := h.exists_firstNamed? hx hlabel
    obtain ⟨hmem, -, hqlabel⟩ := h.firstNamed?_spec htaken hq
    have hqlist := (h.mem_parameters hmem).1
    by_cases hstored : ∃ e ∈ t.significant k.body, t.storedMember? fw.attrsMember e = some name
    · obtain ⟨x, hx, hxmember⟩ := hstored
      obtain ⟨e, he, hmember, heq⟩ := h.exists_planField_eq hf hname hx hxmember p
      rw [h.storedParameter?_of_own hown htaken he hmember hq] at heq
      simp only [hmem, if_true] at heq
      rw [heq] at hplan ⊢
      exact h.pass_parameter hplan htrack hdone hrest hqlist hqlabel
    · have heq := h.planField_eq hf hname (fun e he hmember => hstored ⟨e, he, hmember⟩) p
      rw [heq] at hplan ⊢
      have hfirst : ∀ e ∈ (k.supplyParameter p f name).plan, e.Supplies t k.list k.body :=
        fun e he => hplan e (List.mem_append_left _ he)
      exact (h.track_parameters_found hfirst ((h.existing?_eq htaken).trans hq) hqlist hqlabel hdone
        hrest htrack).keep_parameters h.parts ht hfirst rfl (by simp)
  · -- the field has none, and the anchor stays or goes behind the one that is inserted
    intro p f name done rest hplan hf hname hnone htrack
    have htaken := Field.taken_of_mem hf hname
    have hfirst? := h.firstNamed?_eq_none htaken hnone
    by_cases hstored : ∃ e ∈ t.significant k.body, t.storedMember? fw.attrsMember e = some name
    · obtain ⟨x, hx, hxmember⟩ := hstored
      obtain ⟨e, he, hmember, heq⟩ := h.exists_planField_eq hf hname hx hxmember p
      have hparameter : (k.planField p f).parameter = p.parameter := by
        rw [heq]
        cases hq : ({ tree := t, framework := fw } : Source).storedParameter? e with
        | none => rfl
        | some q =>
            simp [h.not_storedParameter?_of_own hown htaken he hmember hfirst? hq]
      have hplanEq : (k.planField p f).plan = p.plan := by rw [heq]
      rw [hparameter, hplanEq]
      exact htrack.mono
    · have heq := h.planField_eq hf hname (fun e he hmember => hstored ⟨e, he, hmember⟩) p
      rcases k.supplyParameter_cases p f name with ⟨q, hq, -⟩ | ⟨-, hsupply⟩
      · rw [h.existing?_eq htaken, hfirst?] at hq
        cases hq
      · rw [heq, hsupply] at hplan ⊢
        have hold : ∀ e ∈ p.plan, e.Supplies t k.list k.body := fun e he => hplan e (by simp [he])
        refine (htrack.insert_parameter h.parts ht hold f.type htaken).keep_parameters h.parts ht
          (fun e he => hplan e (List.mem_append_left _ he)) rfl (by simp)

end Builder.StraightTask

namespace Builder

variable {b : Builder} {fw : Framework} {t : Tree} {k : SyncTask}

/-- What is left of a list after removals is in order if the list was. -/
theorem sublist_of_track {label : Tree → NodeId → Option String} {site : NodeId} {plan : Plan}
    {last : Option Anchor} {names : List String} {v : Tree} {removed : List NodeId}
    (htrack : Track t label site plan last names [])
    (hchildren : v.children site =
      ((Edit.outcome t plan).2.children site).filter (· ∉ removed))
    (hlabel : ∀ x ∈ v.children site, label v x = label (Edit.outcome t plan).2 x) :
    ((v.children site).filterMap (label v)).Sublist names := by
  obtain ⟨n, -, hcut⟩ := htrack
  rw [List.filterMap_congr hlabel, hchildren]
  exact (List.filter_sublist.filterMap _).trans hcut.sublist

/-- **Synchronising keeps the order of declaration.** -/
theorem synchronize_keeps_order {function : NodeId} {n : Nat} {v : Tree} (ht : t.WellFormed)
    (hb : ofFunction? { tree := t, framework := fw } function = some b)
    (hk : SyncTask.of { tree := t, framework := fw } b = .ok k)
    (hnodup : (k.fields.filterMap (·.name)).Nodup)
    (hhandler : ∀ p, k.handler? = some p → ∀ name, t.name? p = some name →
      Field.taken k.fields name = false)
    (hattrs : ({ tree := t, framework := fw } : Source).lexical? k.body fw.attrsMember = none)
    (hline : t.Straight fw.attrsMember k.body)
    (hparameters : Field.InOrder k.fields ((t.parameters b.function).filterMap t.name?))
    (hstatements : Field.InOrder k.fields
      ((t.significant k.body).filterMap (t.storedMember? fw.attrsMember)))
    (hrun : Change.run (b.synchronize fw) t = (.ok n, v)) :
    Field.InOrder k.fields ((v.significant k.body).filterMap (v.storedMember? fw.attrsMember)) ∧
      (k.StoresOwn → Field.InOrder k.fields ((v.parameters b.function).filterMap v.name?)) := by
  obtain ⟨call, lambda, props, h⟩ := exists_straightTask ht hb hk hnodup hhandler hattrs hline
  obtain ⟨gone, w, u, hs⟩ := h.exists_stages hrun
  have hw := hs.outcome_eq
  constructor
  · obtain ⟨last, htrack⟩ := h.track_statements hstatements
    unfold Field.InOrder
    rw [← Tree.filterMap_storedField?]
    refine sublist_of_track htrack (hw ▸ hs.children_body_eq h.parts ht) fun x hx => ?_
    rw [Tree.storedField?, Tree.storedField?, ← hw,
      (hs.sameBelow h.parts ht hx).storedMember?_eq hs.supplied.kept.wellFormed]
  · intro hown
    obtain ⟨last, htrack⟩ := h.track_parameters hown hparameters
    have hlist := (h.parts.edited ht hs.edited_last).list_eq
    unfold Field.InOrder
    rw [← Tree.filterMap_parameterField? k.fields hlist]
    refine sublist_of_track htrack (hw ▸ hs.children_list_eq h.parts ht) fun p hp => ?_
    rw [Tree.parameterField?, Tree.parameterField?, Tree.name?, Tree.name?,
      hs.kind_parameter h.parts ht hp, hw]

/-- A component `C` whose props have the fields, all of type `Int`, and a function with the
parameters of the types that constructs it with a lambda of the statements. Answers the function. -/
def propsBuilder (fields : List String) (parameters : List (String × String))
    (statements : Draft (List NodeId)) : Draft NodeId := do
  let members ← fields.mapM (Draft.property · (some (.simple "Int")) true)
  let props ← Draft.interface "CProps" [.simple "RProps"] members
  let _ ← Draft.declare props
  let base ← Draft.supertype (.generic "RComponent" [.simple "CProps", .simple "RState"]) (some [])
  let component ← Draft.classDecl "C" none [base] []
  let _ ← Draft.declare component
  let parameters ← parameters.mapM fun p => Draft.parameter p.1 (some (.simple p.2)) none
  let name ← Draft.classRef "C"
  let lambda ← Draft.lambda (← statements)
  let call ← Draft.call "child" [name] (some lambda)
  let decl : FunctionDecl := { name := some "c", receiver := some (.simple "RBuilder") }
  let function ← Draft.function decl parameters call
  Draft.declare function

/-- A task that is found to have a property. -/
theorem exists_of_checked {found : Except EditError SyncTask} {P : SyncTask → Prop}
    [DecidablePred P] (h : found.toOption.map (fun k => decide (P k)) = some true) :
    ∃ k, found = .ok k ∧ P k := by
  cases found with
  | error e => cases h
  | ok k => exact ⟨k, rfl, of_decide_eq_true (Option.some.inj h)⟩

/-- The statements `attrs.a = a; log(1); attrs.c = c`. -/
def loggedStores : Draft (List NodeId) := do
  let first ← Draft.assignMember "attrs" "a" "a"
  let key ← Draft.literal "1"
  let log ← Draft.call "log" [key] none
  let last ← Draft.assignMember "attrs" "c" "c"
  return [first, log, last]

/-- Of four fields the second and the last are supplied, between and behind what is there. -/
theorem synchronize_keeps_order_between :
    let t := ((propsBuilder ["a", "b", "c", "d"] [("a", "Int"), ("old", "Int"), ("c", "Int")]
      loggedStores).run (Tree.ofFile "F")).2
    let s : Source := { tree := t, framework := {} }
    let b : Builder := { component := { decl := 11, base := 10 }, function := 37 }
    t.WellFormed ∧ ofFunction? s 37 = some b ∧ t.Straight "attrs" 32 ∧
      ∃ k v, SyncTask.of s b = .ok k ∧ k.body = 32 ∧ k.StoresOwn ∧
        Change.run (b.synchronize {}) t = (.ok 5, v) ∧
        Field.InOrder k.fields ((v.significant 32).filterMap (v.storedMember? "attrs")) ∧
        Field.InOrder k.fields ((v.parameters 37).filterMap v.name?) ∧
        (v.parameters 37).filterMap v.name? = ["a", "b", "c", "d"] := by
  intro t s b
  have hfacts : t.WellFormed ∧ ofFunction? s 37 = some b ∧ t.kind 32 = .block ∧
      (∀ x ∈ t.significant 32, t.PlainBelow "attrs" x) ∧ s.lexical? 32 "attrs" = none ∧
      ((SyncTask.of s b).toOption.map fun k => decide (k.body = 32 ∧
        (k.fields.filterMap (·.name)).Nodup ∧ k.handler? = none ∧ k.StoresOwn ∧
        Field.InOrder k.fields ((t.parameters 37).filterMap t.name?) ∧
        Field.InOrder k.fields ((t.significant 32).filterMap (t.storedMember? "attrs")))) =
          some true := by decide +kernel
  have hresult : (Change.run (b.synchronize {}) t).1 = .ok 5 ∧
      ((Change.run (b.synchronize {}) t).2.parameters 37).filterMap
        (Change.run (b.synchronize {}) t).2.name? = ["a", "b", "c", "d"] := by decide +kernel
  obtain ⟨ht, hb, hblock, hplain, hattrs, htask⟩ := hfacts
  have hline : t.Straight "attrs" 32 :=
    Tree.straight_of_plain ht hblock fun x hx => (hplain x hx).plainStatement ht
  obtain ⟨k, hk, hbody, hnodup, hhandler, hown, hparameters, hstatements⟩ := exists_of_checked htask
  rcases hrun : Change.run (b.synchronize {}) t with ⟨n, v⟩
  rw [hrun] at hresult
  obtain ⟨rfl, hnames⟩ : n = .ok 5 ∧ _ := hresult
  rw [← hbody] at hattrs hline hstatements
  obtain ⟨hafter, hafter'⟩ := synchronize_keeps_order ht hb hk hnodup
    (fun p hp => by simp [hhandler] at hp) hattrs hline hparameters hstatements hrun
  rw [hbody] at hline hafter
  exact ⟨ht, hb, hline, k, v, hk, hbody, hown, rfl, hafter, hafter' hown, hnames⟩

/-- A statement that stores what a call with one argument gives. -/
def computed (member callee : String) (argument : Draft NodeId) : Draft NodeId := do
  let attrs ← Draft.reference "attrs"
  let member ← Draft.reference member
  let place ← Draft.select attrs member
  let argument ← argument
  let value ← Draft.call callee [argument] none
  Draft.assign place value

/-- The statement `attrs.a = foo(a)`. -/
def computedStore : Draft (List NodeId) := do
  return [← computed "a" "foo" (Draft.reference "a")]

/-- **A parameter that loses its place.** The first field is assigned from an expression that uses
its parameter. The parameter for the second field is put before it. -/
theorem synchronize_loses_order :
    let t := ((propsBuilder ["a", "b"] [("a", "Int")] computedStore).run (Tree.ofFile "F")).2
    let s : Source := { tree := t, framework := {} }
    let b : Builder := { component := { decl := 7, base := 6 }, function := 23 }
    t.WellFormed ∧ ofFunction? s 23 = some b ∧ t.Straight "attrs" 18 ∧
      s.lexical? 18 "attrs" = none ∧ t.parent 23 = some t.root ∧
      ∃ k v, SyncTask.of s b = .ok k ∧ k.body = 18 ∧ k.handler? = none ∧
        k.fields.filterMap (·.name) = ["a", "b"] ∧
        Field.InOrder k.fields ((t.parameters 23).filterMap t.name?) ∧
        Field.InOrder k.fields ((t.significant 18).filterMap (t.storedMember? "attrs")) ∧
        Change.run (b.synchronize {}) t = (.ok 2, v) ∧
        (v.significant 18).filterMap (v.storedMember? "attrs") = ["a", "b"] ∧
        (v.parameters 23).filterMap v.name? = ["b", "a"] ∧
        ¬ Field.InOrder k.fields ((v.parameters 23).filterMap v.name?) := by
  intro t s b
  have hfacts : t.WellFormed ∧ ofFunction? s 23 = some b ∧ t.kind 18 = .block ∧
      (∀ x ∈ t.significant 18, t.PlainBelow "attrs" x) ∧ s.lexical? 18 "attrs" = none ∧
      t.parent 23 = some t.root ∧
      ((SyncTask.of s b).toOption.map fun k => decide (k.body = 18 ∧ k.handler? = none ∧
        k.fields.filterMap (·.name) = ["a", "b"] ∧
        Field.InOrder k.fields ((t.parameters 23).filterMap t.name?) ∧
        Field.InOrder k.fields ((t.significant 18).filterMap (t.storedMember? "attrs")) ∧
        ¬ Field.InOrder k.fields ["b", "a"])) = some true := by decide +kernel
  have hresult : (Change.run (b.synchronize {}) t).1 = .ok 2 ∧
      ((Change.run (b.synchronize {}) t).2.significant 18).filterMap
        ((Change.run (b.synchronize {}) t).2.storedMember? "attrs") = ["a", "b"] ∧
      ((Change.run (b.synchronize {}) t).2.parameters 23).filterMap
        (Change.run (b.synchronize {}) t).2.name? = ["b", "a"] := by decide +kernel
  obtain ⟨ht, hb, hblock, hplain, hattrs, hparent, htask⟩ := hfacts
  have hline : t.Straight "attrs" 18 :=
    Tree.straight_of_plain ht hblock fun x hx => (hplain x hx).plainStatement ht
  obtain ⟨k, hk, hbody, hhandler, hnames, hparameters, hstatements, hbroken⟩ :=
    exists_of_checked htask
  obtain ⟨hrun, hstatements', hparameters'⟩ := hresult
  exact ⟨ht, hb, hline, hattrs, hparent, k, (Change.run (b.synchronize {}) t).2, hk, hbody,
    hhandler, hnames, hparameters, hstatements, Prod.ext hrun rfl, hstatements', hparameters',
    hparameters'.symm ▸ hbroken⟩

end Builder

end ComponentAudit
