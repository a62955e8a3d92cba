import ComponentAudit.Proofs.Edit.Beside
import ComponentAudit.Proofs.Edit.Order

set_option autoImplicit false

/-! # Synchronising closes the gap

After a builder function with plain statements is synchronised, its lambda assigns every field from
a parameter of the field's type or from another expression, and nothing else.

The statements and the parameters at the end are old ones or supplied for a field
(`Stages.statement_cases`, `Stages.parameter_cases`). So the lambda is straight again
(`exists_straight_after`), and what the analysis finds there is read off these cases. A name in the
lambda means what it meant: supplied parameters have the names of fields that had none, and the
parameters that go are not used.

Main statement: `Builder.synchronize_closes_gap`.
-/

namespace ComponentAudit

/-- What is found in a list is found in one that has more members, if none of them passes. -/
theorem find?_eq_of_sublist {α : Type} {l l' : List α} (hsub : l.Sublist l') (hnodup : l'.Nodup)
    {test : α → Bool} (h : ∀ x ∈ l', test x = true → x ∈ l) : l'.find? test = l.find? test := by
  induction hsub with
  | slnil => rfl
  | @cons l l' a hsub ih =>
      obtain ⟨ha, hnodup⟩ := List.nodup_cons.mp hnodup
      have hfalse : test a ≠ true := fun htest => ha (hsub.subset (h a List.mem_cons_self htest))
      rw [List.find?_cons_of_neg hfalse]
      exact ih hnodup fun x hx => h x (List.mem_cons_of_mem _ hx)
  | @cons_cons l l' a hsub ih =>
      obtain ⟨ha, hnodup⟩ := List.nodup_cons.mp hnodup
      by_cases htest : test a = true
      · rw [List.find?_cons_of_pos htest, List.find?_cons_of_pos htest]
      · rw [List.find?_cons_of_neg htest, List.find?_cons_of_neg htest]
        refine ih hnodup fun x hx hx' => ?_
        refine (List.mem_cons.mp (h x (List.mem_cons_of_mem _ hx) hx')).resolve_left ?_
        rintro rfl
        exact ha hx

/-! ## Plain statements that stay -/

namespace Tree

variable {t u : Tree} {x : NodeId} {base : String}

namespace SameBelow

variable (h : t.SameBelow u x) (ht : t.WellFormed) (hu : u.WellFormed)

include h ht hu

theorem sameScope_of {y : NodeId} (hy : u.SameScope x y) : t.SameScope x y := by
  induction hy with
  | refl => exact .refl
  | @child p c _ hopen hc ih =>
      obtain ⟨hkind, hchildren⟩ := h p ih.under
      have hmem := hu.mem_children_iff.mpr hc
      rw [hchildren] at hmem
      refine .child ih ?_ (ht.mem_children_iff.mp hmem)
      rwa [opensScope, hkind] at hopen

theorem calm (hcalm : t.Calm x) : u.Calm x := by
  intro y hy
  have hscope := h.sameScope_of ht hu hy
  rw [(h y hscope.under).1]
  exact hcalm y hscope

theorem plainStatement (hplain : t.PlainStatement base x) : u.PlainStatement base x := by
  cases hplain with
  | store hstore ho hcalm =>
      have hvalue := h.child ht (mem_children_of_operands? ho).2
      exact .store ((h.storedMember?_eq ht base).trans hstore) (h.operands?_eq.trans ho)
        (hvalue.calm ht hu hcalm)
  | expression hform hcalm => exact .expression ((h.form_eq _).trans hform) (h.calm ht hu hcalm)

end SameBelow

theorem StoreParts.storedMember?_eq {place r m v : NodeId} {member value : String}
    (h : t.StoreParts x base member value place r m v) :
    t.storedMember? base x = some member :=
  storedMember?_eq_some_iff.mpr h.memberStore?_eq

theorem StoreParts.plainStatement (ht : t.WellFormed) {place r m v : NodeId}
    {member value : String} (h : t.StoreParts x base member value place r m v) :
    t.PlainStatement base x := by
  refine .store h.storedMember?_eq h.operands?_eq fun y hy => ?_
  obtain rfl := ht.eq_of_under h.value.children_eq hy.under
  simp [h.value.kind_eq]

/-- Whether the stores of a block into members of a name that store bare names store the names of
the members. -/
def StoresNamesakes (t : Tree) (base : String) (body : NodeId) : Prop :=
  ∀ x ∈ t.significant body, ∀ member ∈ t.storedMember? base x, ∀ ops ∈ t.operands? x,
    ∀ name ∈ t.referenceName? ops.2, name = member

instance (t : Tree) (base : String) (body : NodeId) : Decidable (t.StoresNamesakes base body) :=
  inferInstanceAs (Decidable (∀ x ∈ t.significant body, _))

/-- The names that are stored in a member, its own included. -/
def feeders (t : Tree) (base : String) (body : NodeId) (member : String) : List String :=
  member :: (t.significant body).filterMap fun x =>
    if t.storedMember? base x = some member then
      (t.operands? x).bind fun ops => t.referenceName? ops.2
    else none

theorem mem_feeders_self {body : NodeId} {member : String} :
    member ∈ t.feeders base body member := List.mem_cons_self

theorem mem_feeders {body place value : NodeId} {member name : String}
    (hx : x ∈ t.significant body) (hmember : t.storedMember? base x = some member)
    (ho : t.operands? x = some (place, value)) (hvalue : t.kind value = .reference name) :
    name ∈ t.feeders base body member := by
  refine List.mem_cons_of_mem _ (List.mem_filterMap.mpr ⟨x, hx, ?_⟩)
  simp [hmember, ho, referenceName?, hvalue, Kind.referenceName?]

/-- Whether fields that the same name is stored in have the same type. The name of a field counts
as stored there. -/
def SharesTypes (t : Tree) (base : String) (body : NodeId) (fields : List Field) : Prop :=
  ∀ f ∈ fields, ∀ g ∈ fields, ∀ m ∈ f.name, ∀ m' ∈ g.name, ∀ name ∈ t.feeders base body m,
    name ∈ t.feeders base body m' → f.type = g.type

instance (t : Tree) (base : String) (body : NodeId) (fields : List Field) :
    Decidable (t.SharesTypes base body fields) :=
  inferInstanceAs (Decidable (∀ f ∈ fields, _))

/-- No name is stored in two fields if only namesakes are stored. -/
theorem StoresNamesakes.sharesTypes {body : NodeId} (h : t.StoresNamesakes base body)
    {fields : List Field} (hnodup : (fields.filterMap (·.name)).Nodup) :
    t.SharesTypes base body fields := by
  have hown {member name : String} (hname : name ∈ t.feeders base body member) : name = member := by
    rcases List.mem_cons.mp hname with rfl | hname
    · rfl
    · obtain ⟨x, hx, hstored⟩ := List.mem_filterMap.mp hname
      obtain ⟨hmember, hstored⟩ := Option.ite_none_right_eq_some.mp hstored
      obtain ⟨ops, ho, hvalue⟩ := Option.bind_eq_some_iff.mp hstored
      exact h x hx member hmember ops ho name hvalue
  intro f hf g hg m hm m' hm' name hname hname'
  obtain rfl := (hown hname).symm.trans (hown hname')
  have hfound := (Field.named?_eq_some hnodup hf hm).symm.trans (Field.named?_eq_some hnodup hg hm')
  rw [Option.some.inj hfound]

end Tree

theorem Tree.declaredType?_of_parameter {t : Tree} {p : NodeId}
    (h : (t.kind p).isParameter = true) : t.declaredType? p = t.writtenType? p := by
  unfold declaredType?
  cases hk : t.kind p <;> simp_all [Kind.isParameter]

/-- An assignment is not outdated if what is stored has the type of the field. -/
theorem Source.outdated?_assignmentAt_eq_none {s : Source} {f : Field} {e : NodeId}
    (h : ∀ p type written, s.storedParameter? e = some p → f.type = some type →
      s.tree.declaredType? p = some written → written = type) :
    s.outdated? f (s.assignmentAt e) = none := by
  unfold outdated?
  split
  · next p horigin =>
    have hp := origin_assignmentAt.mp horigin
    cases htype : f.type with
    | none => rfl
    | some type =>
        cases hwritten : s.tree.declaredType? p with
        | none => rfl
        | some written => simp [h p type written hp htype hwritten]
  · rfl

/-! ## What a task finds and plans -/

namespace Builder.StraightTask

variable {b : Builder} {fw : Framework} {t : Tree} {k : SyncTask} {call lambda : NodeId}
  {props : TypeExpr} (h : b.StraightTask fw t k call lambda props) {f : Field} {name : String}

include h

/-- A store of a field is not removed. -/
theorem mem_kept_of_store (hf : f ∈ k.fields) (hname : f.name = some name) {x : NodeId}
    (hx : x ∈ t.significant k.body)
    (hmember : t.storedMember? fw.attrsMember x = some name) :
    x ∈ (t.significant k.body).filter (· ∉ k.strayWrites) := by
  refine List.mem_filter.mpr ⟨hx, decide_eq_true fun hstray => ?_⟩
  obtain ⟨-, other, hother, hnone⟩ := h.mem_strayWrites_iff.mp hstray
  obtain rfl : name = other := Option.some.inj (hmember.symm.trans hother)
  rw [Field.named?_eq_some h.straight.nodup hf hname] at hnone
  cases hnone

theorem eq_of_name {g : Field} (hf : f ∈ k.fields) (hg : g ∈ k.fields) (hname : f.name = some name)
    (hgname : g.name = some name) : f = g :=
  Option.some.inj ((Field.named?_eq_some h.straight.nodup hf hname).symm.trans
    (Field.named?_eq_some h.straight.nodup hg hgname))

theorem mem_assigned {a : Assignment} (hf : f ∈ k.fields) (ha : k.state.get? f = some a) :
    (f, a) ∈ k.state.assigned := by
  obtain ⟨⟨g, a'⟩, hfind, rfl⟩ := Option.map_eq_some_iff.mp ha
  have hmem := List.mem_of_find?_eq_some hfind
  have hdecl : g.decl = f.decl := by simpa using List.find?_some hfind
  have hg := (h.straight.get?_of_mem_assigned h.wellFormed h.state?_eq hmem).1
  obtain rfl := Construction.eq_of_decl h.straight.fields_eq hg hf hdecl
  exact hmem

/-- An assigned field with a parameter of another type is reported. -/
theorem mem_outdated {e p : NodeId} {type written : TypeExpr} (hf : f ∈ k.fields)
    (ha : k.state.get? f = some (({ tree := t, framework := fw } : Source).assignmentAt e))
    (hp : ({ tree := t, framework := fw } : Source).storedParameter? e = some p)
    (htype : f.type = some type) (hwritten : t.declaredType? p = some written)
    (hne : written ≠ type) :
    { field := f, parameter := p } ∈ (k.source.gaps k.state k.fields).outdated := by
  refine List.mem_filterMap.mpr ⟨_, h.mem_assigned hf ha, ?_⟩
  have horigin := Source.origin_assignmentAt.mpr hp
  simp [Source.outdated?, horigin, htype, h.tree_eq, hwritten, hne]

variable (hnamed : ∀ f ∈ k.fields, f.name.isSome = true)

include hnamed

/-- The name of a parameter that is reported is stored in its field. -/
theorem name?_of_outdated {o : Mismatch} (ho : o ∈ (k.source.gaps k.state k.fields).outdated) :
    o.field ∈ k.fields ∧ ∃ name member, t.name? o.parameter = some name ∧
      o.field.name = some member ∧ name ∈ t.feeders fw.attrsMember k.body member := by
  obtain ⟨⟨g, a⟩, hmem, houtdated⟩ := List.mem_filterMap.mp ho
  obtain ⟨hg, hget⟩ := h.straight.get?_of_mem_assigned h.wellFormed h.state?_eq hmem
  obtain ⟨member, hgname⟩ := Option.isSome_iff_exists.mp (hnamed g hg)
  obtain ⟨e, he, hmember, rfl⟩ := h.exists_store hg hgname hget
  obtain ⟨p, horigin, rfl⟩ : ∃ p,
      (({ tree := t, framework := fw } : Source).assignmentAt e).origin = .parameter p ∧
        o = { field := g, parameter := p } := by
    dsimp only [Source.outdated?] at houtdated
    split at houtdated
    · next p horigin =>
      obtain ⟨declared, -, houtdated⟩ := Option.bind_eq_some_iff.mp houtdated
      obtain ⟨written, -, houtdated⟩ := Option.bind_eq_some_iff.mp houtdated
      split at houtdated
      · cases houtdated
      · exact ⟨p, horigin, (Option.some.inj houtdated).symm⟩
    · cases houtdated
  obtain ⟨place, value, name, ho', hvalue, -, -, hpname⟩ :=
    Source.exists_of_storedParameter? (Source.origin_assignmentAt.mp horigin)
  exact ⟨hg, name, member, hpname, hgname, Tree.mem_feeders he hmember ho' hvalue⟩

/-- **What types are changed to**: that of a field that the parameter's name is stored in. -/
theorem field_of_retype {p : NodeId} {type : TypeExpr} (he : .retype p type ∈ k.front) :
    ∃ g ∈ k.fields, ∃ name member, t.name? p = some name ∧ g.name = some member ∧
      name ∈ t.feeders fw.attrsMember k.body member ∧ g.type = some type := by
  cases SyncTask.wants_front h.renameHandler_eq_nil _ he with
  | outdated ho _ htype =>
      obtain ⟨hg, name, member, hname, hgname, hfeeds⟩ := h.name?_of_outdated hnamed ho
      exact ⟨_, hg, name, member, hname, hgname, hfeeds, htype⟩
  | retype hg hname _ hp htype _ _ =>
      have htaken := Field.taken_of_mem hg hname
      rw [h.existing?_eq htaken] at hp
      exact ⟨_, hg, _, _, (h.firstNamed?_spec htaken hp).2.1, hname, Tree.mem_feeders_self, htype⟩

end Builder.StraightTask

namespace Builder.Stages

variable {b : Builder} {fw : Framework} {t : Tree} {k : SyncTask} {gone : List NodeId}
  {w u v : Tree} {call lambda : NodeId} {props : TypeExpr}
  (hs : Stages b fw t k gone w u v) (h : b.StraightTask fw t k call lambda props)

include hs h

/-! ## The statements at the end -/

theorem sameBelow_old {x : NodeId} (hold : x ∈ t.children k.body) (hx : x ∈ v.children k.body) :
    t.SameBelow v x :=
  (hs.supplied.kept.statement x hold).trans h.wellFormed hs.supplied.kept.wellFormed
    (hs.sameBelow h.parts h.wellFormed hx)

/-- **A statement at the end** is an old one that writes no props but fields, a blank, or the store
of a field that was not assigned. -/
theorem statement_cases {x : NodeId} (hx : x ∈ v.children k.body) :
    (x ∈ t.children k.body ∧ t.SameBelow v x ∧ x ∉ k.strayWrites) ∨ (v.kind x).isTrivia = true ∨
      ∃ f ∈ k.fields, ∃ name, f.name = some name ∧ k.state.get? f = none ∧
        ∃ place r m y, v.StoreParts x fw.attrsMember name name place r m y := by
  have ht := h.wellFormed
  have hsame := hs.sameBelow h.parts ht hx
  have hxw := hx
  rw [hs.children_body_eq h.parts ht, List.mem_filter] at hxw
  obtain ⟨hxw, hgone⟩ := hxw
  have hwf := hs.supplied.kept.wellFormed
  rcases hs.supplied.statement_cases x hxw with
    hold | ⟨-, hblank | ⟨after, receiver, field, place, r, m, y, hstore, he⟩⟩
  · refine .inl ⟨hold, hs.sameBelow_old h hold hx, fun hstray => ?_⟩
    simp [hs.stray x hstray] at hgone
  · exact .inr (.inl (by simp [hsame.kind_eq, hblank, Kind.isTrivia]))
  · obtain ⟨f, hf, hname, hmissing, rfl⟩ : ∃ f ∈ k.fields, f.name = some field ∧
        k.state.get? f = none ∧ receiver = fw.attrsMember := by
      cases SyncTask.wants_front h.renameHandler_eq_nil _ he with
      | statement hf hname hmissing => exact ⟨_, hf, hname, hmissing, h.attrsMember_eq⟩
    have hsize := (hs.kept h.parts ht).1.size_le.trans (hs.kept h.parts ht).2.size_le
    exact .inr (.inr ⟨f, hf, field, hname, hmissing, place, r, m, y,
      hstore.sameBelow hwf hsame hsize⟩)

/-- The old statements that write no props but fields are there, in their order. -/
theorem sublist_significant :
    ((t.significant k.body).filter (· ∉ k.strayWrites)).Sublist (v.significant k.body) := by
  have ht := h.wellFormed
  generalize hkept : (t.significant k.body).filter (· ∉ k.strayWrites) = kept
  have hmem {x : NodeId} (hx : x ∈ kept) : x ∈ t.children k.body ∧ (t.kind x).isTrivia = false ∧
      x ∉ k.strayWrites := by
    rw [← hkept] at hx
    obtain ⟨hx, hstray⟩ := List.mem_filter.mp hx
    obtain ⟨hx, htrivia⟩ := List.mem_filter.mp hx
    exact ⟨hx, by simpa using htrivia, by simpa using hstray⟩
  have hgone {x : NodeId} (hx : x ∈ kept) : x ∉ gone := by
    obtain ⟨hchild, htrivia, hstray⟩ := hmem hx
    intro hgone
    rcases hs.gone_cases x hgone with hin | hblank
    · exact hstray hin
    · rw [(hs.supplied.kept.statement x hchild).kind_eq] at hblank
      cases hk : t.kind x <;> simp_all [Kind.isBlank, Kind.isTrivia]
  have hchildren : kept.Sublist (v.children k.body) := by
    rw [hs.children_body_eq h.parts ht]
    refine List.sublist_filter_iff.mpr ⟨kept, .trans ?_ hs.supplied.statements,
      (List.filter_eq_self.mpr fun x hx => decide_eq_true (hgone hx)).symm⟩
    rw [← hkept]
    exact List.filter_sublist.trans List.filter_sublist
  refine List.sublist_filter_iff.mpr
    ⟨kept, hchildren, (List.filter_eq_self.mpr fun x hx => ?_).symm⟩
  obtain ⟨hchild, htrivia, -⟩ := hmem hx
  simp [(hs.sameBelow_old h hchild (hchildren.subset hx)).kind_eq, htrivia]

/-- A field that was not assigned has a statement now. -/
theorem exists_supplied {f : Field} {name : String} (hf : f ∈ k.fields) (hname : f.name = some name)
    (hmissing : k.state.get? f = none) :
    ∃ x ∈ v.significant k.body, v.storedMember? fw.attrsMember x = some name := by
  have ht := h.wellFormed
  obtain ⟨after, he⟩ := SyncTask.exists_statement_mem_front hf hname hmissing
  rw [h.attrsMember_eq] at he
  obtain ⟨x, hx, hsize, place, r, m, y, hstore⟩ := hs.supplied.stores he
  have hgone : x ∉ gone := by
    intro hgone
    rcases hs.gone_cases x hgone with hstray | hblank
    · have hold := Tree.mem_children_of_significant (h.mem_strayWrites_iff.mp hstray).1
      exact absurd (ht.inside_of_child hold).lt_size (Nat.not_lt_of_le hsize)
    · simp [hstore.statement.kind_eq, Kind.isBlank] at hblank
  have hxv : x ∈ v.children k.body := by
    rw [hs.children_body_eq h.parts ht]
    exact List.mem_filter.mpr ⟨hx, decide_eq_true hgone⟩
  have hmember : v.storedMember? fw.attrsMember x = some name := by
    rw [(hs.sameBelow h.parts ht hxv).storedMember?_eq hs.supplied.kept.wellFormed,
      hstore.storedMember?_eq]
  exact ⟨x, Tree.mem_significant_of_storedMember? hxv hmember, hmember⟩

/-- **Every field is assigned at the end.** -/
theorem exists_store_after {f : Field} {name : String} (hf : f ∈ k.fields)
    (hname : f.name = some name) :
    ∃ x ∈ v.significant k.body, v.storedMember? fw.attrsMember x = some name := by
  cases hget : k.state.get? f with
  | none => exact hs.exists_supplied h hf hname hget
  | some a =>
      obtain ⟨e, he, hmember, -⟩ := h.exists_store hf hname hget
      have hmem := (hs.sublist_significant h).subset (h.mem_kept_of_store hf hname he hmember)
      refine ⟨e, hmem, ?_⟩
      rw [(hs.sameBelow_old h (Tree.mem_children_of_significant he)
        (Tree.mem_children_of_significant hmem)).storedMember?_eq h.wellFormed, hmember]

/-- **Every store at the end** stores a field. It was there, or the field was not assigned. -/
theorem store_cases {x : NodeId} {name : String} (hx : x ∈ v.significant k.body)
    (hmember : v.storedMember? fw.attrsMember x = some name) :
    ∃ f ∈ k.fields, f.name = some name ∧
      ((x ∈ (t.significant k.body).filter (· ∉ k.strayWrites) ∧ t.SameBelow v x) ∨
        k.state.get? f = none ∧
          ∃ place r m y, v.StoreParts x fw.attrsMember name name place r m y) := by
  have hkind := Tree.kind_of_storedMember? hmember
  rcases hs.statement_cases h (Tree.mem_children_of_significant hx) with
    ⟨hold, hsame, hstray⟩ | htrivia | ⟨f, hf, own, hname, hmissing, place, r, m, y, hstore⟩
  · have hbefore := (hsame.storedMember?_eq h.wellFormed fw.attrsMember).symm.trans hmember
    have hsignificant := Tree.mem_significant_of_storedMember? hold hbefore
    cases hnamed : Field.named? k.fields name with
    | none =>
        exact absurd (h.mem_strayWrites_iff.mpr ⟨hsignificant, name, hbefore, hnamed⟩) hstray
    | some f =>
        refine ⟨f, List.mem_of_find?_eq_some hnamed, by simpa using List.find?_some hnamed, .inl ?_⟩
        exact ⟨List.mem_filter.mpr ⟨hsignificant, decide_eq_true hstray⟩, hsame⟩
  · simp [hkind, Kind.isTrivia] at htrivia
  · obtain rfl : name = own := Option.some.inj (hmember.symm.trans hstore.storedMember?_eq)
    exact ⟨f, hf, hname, .inr ⟨hmissing, place, r, m, y, hstore⟩⟩

/-- The statements stay plain. -/
theorem plainStatement_after
    (hplain : ∀ x ∈ t.significant k.body, t.PlainStatement fw.attrsMember x) {x : NodeId}
    (hx : x ∈ v.significant k.body) : v.PlainStatement fw.attrsMember x := by
  have hv := hs.edited_last.wellFormed
  obtain ⟨hchild, htrivia⟩ := List.mem_filter.mp hx
  rcases hs.statement_cases h hchild with
    ⟨hold, hsame, -⟩ | hother | ⟨f, -, name, -, -, place, r, m, y, hstore⟩
  · rw [hsame.kind_eq] at htrivia
    exact hsame.plainStatement h.wellFormed hv (hplain x (List.mem_filter.mpr ⟨hold, htrivia⟩))
  · simp [hother] at htrivia
  · exact hstore.plainStatement hv

/-- The last store of a field that was assigned stays the last one. -/
theorem find?_store_eq {f : Field} {name : String} {a : Assignment} (hf : f ∈ k.fields)
    (hname : f.name = some name) (ha : k.state.get? f = some a) :
    ((v.significant k.body).reverse.find? fun e => v.storedMember? fw.attrsMember e == some name) =
      (t.significant k.body).reverse.find? fun e =>
        t.storedMember? fw.attrsMember e == some name := by
  have hsub := (hs.sublist_significant h).reverse
  have hnodup : (v.significant k.body).reverse.Nodup :=
    List.nodup_reverse.mpr ((hs.edited_last.wellFormed.nodup_children k.body).filter _)
  rw [find?_eq_of_sublist hsub hnodup]
  · have hlabel : ∀ x ∈ ((t.significant k.body).filter (· ∉ k.strayWrites)).reverse,
        (v.storedMember? fw.attrsMember x == some name) =
          (t.storedMember? fw.attrsMember x == some name) := by
      intro x hx
      have hkept := List.mem_reverse.mp hx
      have hold := Tree.mem_children_of_significant (List.mem_filter.mp hkept).1
      have hafter := Tree.mem_children_of_significant ((hs.sublist_significant h).subset hkept)
      rw [(hs.sameBelow_old h hold hafter).storedMember?_eq h.wellFormed]
    rw [List.find?_congr hlabel, ← List.filter_reverse]
    refine find?_filter_eq fun x hx => ?_
    have hmem := List.mem_reverse.mp (List.mem_of_find?_eq_some hx)
    have hmember : t.storedMember? fw.attrsMember x = some name := by
      simpa using List.find?_some hx
    exact (List.mem_filter.mp (h.mem_kept_of_store hf hname hmem hmember)).2
  · intro x hx hmember
    obtain ⟨g, hg, hgname, ⟨hkept, -⟩ | ⟨hmissing, -⟩⟩ :=
      hs.store_cases h (List.mem_reverse.mp hx) (by simpa using hmember)
    · exact List.mem_reverse.mpr hkept
    · obtain rfl := h.eq_of_name hf hg hname hgname
      rw [hmissing] at ha
      cases ha

/-! ## The parameters at the end -/

/-- **A parameter at the end** is an old one, or one for a field that found none. -/
theorem parameter_cases {p : NodeId} (hp : p ∈ v.children k.list) :
    (p ∈ t.children k.list ∧ v.kind p = t.kind p) ∨
      ∃ f ∈ k.fields, ∃ name, f.name = some name ∧ k.existing? name = none ∧
        v.kind p = .parameter name none ∧ v.writtenType? p = f.type := by
  have ht := h.wellFormed
  have hkind := hs.kind_parameter h.parts ht hp
  have htype := hs.writtenType?_parameter h.parts ht hp
  obtain ⟨-, hpw⟩ := hs.mem_of_parameter h.parts ht hp
  rcases hs.supplied.parameter_cases p hpw with hold | ⟨-, after, name, hname, he⟩
  · exact .inl ⟨hold, hkind.trans (hs.supplied.kept.parameter p hold)⟩
  · generalize w.writtenType? p = type at htype he
    cases SyncTask.wants_front h.renameHandler_eq_nil _ he with
    | parameter hf hfname _ hnone =>
        exact .inr ⟨_, hf, name, hfname, hnone, hkind.trans hname, htype⟩

variable (htop : t.parent b.function = some t.root) (hfile : (t.kind t.root).isFile = true)

include htop hfile

/-- The name of the props stays free. -/
theorem lexical?_attrs
    (hattrs : ({ tree := t, framework := fw } : Source).lexical? k.body fw.attrsMember = none)
    (hfree : ∀ f ∈ k.fields, f.name ≠ some fw.attrsMember) :
    ({ tree := v, framework := fw } : Source).lexical? k.body fw.attrsMember = none := by
  have ht := h.wellFormed
  have hparts := h.parts.edited ht hs.edited_last
  rw [h.parts.lexical?_eq (s := { tree := t, framework := fw }) ht .refl,
    Option.or_eq_none_iff] at hattrs
  rw [hparts.lexical?_eq (s := { tree := v, framework := fw }) hs.edited_last.wellFormed .refl,
    Option.or_eq_none_iff, h.parts.lexical?_function_eq ht hs.edited_last htop hfile]
  refine ⟨List.find?_eq_none.mpr fun p hp hname => ?_, hattrs.2⟩
  rw [Tree.parameters, hparts.list_eq] at hp
  obtain ⟨hp, hparameter⟩ := List.mem_filter.mp hp
  rcases hs.parameter_cases h hp with ⟨hold, hkind⟩ | ⟨f, hf, name, hfname, -, hkind, -⟩
  · rw [hkind] at hparameter
    rw [Tree.name?, hkind] at hname
    refine List.find?_eq_none.mp hattrs.1 p ?_ hname
    rw [Tree.parameters, h.parts.list_eq]
    exact List.mem_filter.mpr ⟨hold, hparameter⟩
  · obtain rfl : name = fw.attrsMember := by simpa [Tree.name?, hkind, Kind.name?] using hname
    exact hfree f hf hfname

/-! ## What is stored at the end -/

/-- A parameter that is stored at the end is the first one of its name, and it was so before the
parameters without a use were removed. -/
theorem firstNamed?_after {e p : NodeId} (he : e ∈ v.children k.body) (hk : v.kind e = .assign)
    (hp : ({ tree := v, framework := fw } : Source).storedParameter? e = some p) :
    ∃ place value name, v.operands? e = some (place, value) ∧ v.kind value = .reference name ∧
      p ∈ v.children k.list ∧ (v.kind p).isParameter = true ∧ v.name? p = some name ∧
      ({ tree := u, framework := fw } : Source).firstNamed? name (u.parameters b.function) =
        some p := by
  have ht := h.wellFormed
  have hu := hs.edited_second.wellFormed
  obtain ⟨place, value, name, ho, hvalue, hresolve, hparameter, hname⟩ :=
    Source.exists_of_storedParameter? hp
  refine ⟨place, value, name, ho, hvalue, ?_, hparameter, hname, ?_⟩
  · have hparts := h.parts.edited ht hs.edited_last
    obtain ⟨htop', hfile'⟩ := h.parts.top_edited ht hs.edited_last htop hfile
    have hfirst := hparts.firstNamed?_of_stored hs.edited_last.wellFormed htop' hfile' he hk ho
      hvalue hresolve hparameter
    have hmem := List.mem_of_find?_eq_some hfirst
    rw [Tree.parameters, hparts.list_eq] at hmem
    exact (List.mem_filter.mp hmem).1
  · have hparts := h.parts.edited ht hs.edited_second
    obtain ⟨htop', hfile'⟩ := h.parts.top_edited ht hs.edited_second htop hfile
    rw [hs.dropped.children_eq (h.parts.list_ne_body ht).symm] at he
    rw [hs.dropped.kind_eq] at hk hvalue hparameter
    rw [hs.dropped.operands?_eq] at ho
    have hunder : u.Under value k.body :=
      .tail (.single (hu.mem_children_iff.mp (Tree.mem_children_of_operands? ho).2))
        (hu.mem_children_iff.mp he)
    have hroot : u.root ≠ k.list := fun heq => hparts.root_not_top hu (by simp [heq])
    have hspares := hparts.spares_unused (s := { tree := u, framework := fw }) hu
    rw [hspares.resolve?_eq hs.dropped hu hroot hunder] at hresolve
    exact hparts.firstNamed?_of_stored hu htop' hfile' he hk ho hvalue hresolve hparameter

omit htop hfile in
/-- An old parameter that is the first one of its name was the first one at the start. -/
theorem firstNamed?_before {p : NodeId} {name : String} (hold : p ∈ t.children k.list)
    (hparameter : (t.kind p).isParameter = true) (hname : t.name? p = some name)
    (hfirst : ({ tree := u, framework := fw } : Source).firstNamed? name
      (u.parameters b.function) = some p) :
    ({ tree := t, framework := fw } : Source).firstNamed? name (t.parameters b.function) =
      some p := by
  have ht := h.wellFormed
  have hwf := hs.edited_first.wellFormed
  have hlist : u.children k.list = w.children k.list :=
    hs.thinned.children_eq ((h.parts.edited ht hs.edited_first).list_inside_function hwf).lt_size
      (h.parts.list_ne_body ht)
  have hkind {q : NodeId} (hq : q ∈ t.children k.list) : u.kind q = t.kind q := by
    have hqw := hs.supplied.parameters.subset hq
    rw [hs.thinned.kind_eq (hwf.inside_of_child hqw).lt_size, hs.supplied.kept.parameter q hq]
  have hbefore : t.parameters b.function = (t.children k.list).filter fun q =>
      (t.kind q).isParameter := by rw [Tree.parameters, h.parts.list_eq]
  have hafter : u.parameters b.function = (u.children k.list).filter fun q =>
      (u.kind q).isParameter := by
    rw [Tree.parameters, (h.parts.edited ht hs.edited_second).list_eq]
  have hsub : (t.parameters b.function).Sublist (u.parameters b.function) := by
    rw [hbefore, hafter, hlist]
    refine List.sublist_filter_iff.mpr ⟨_, List.filter_sublist.trans hs.supplied.parameters,
      (List.filter_eq_self.mpr fun q hq => ?_).symm⟩
    obtain ⟨hq, hqparameter⟩ := List.mem_filter.mp hq
    rw [hkind hq, hqparameter]
  have hnodup : (u.parameters b.function).Nodup := by
    rw [hafter]
    exact (hs.edited_second.wellFormed.nodup_children k.list).filter _
  have hp : p ∈ t.parameters b.function := hbefore ▸ List.mem_filter.mpr ⟨hold, hparameter⟩
  rw [← hfirst, Source.firstNamed?, Source.firstNamed?, find?_eq_of_sublist hsub hnodup]
  · refine List.find?_congr fun q hq => ?_
    rw [hbefore] at hq
    rw [Tree.name?, Tree.name?, hkind (List.mem_filter.mp hq).1]
  · -- a parameter that was supplied has another name, for this one was found
    intro q hq hqname
    rw [hafter, hlist] at hq
    obtain ⟨hqw, hqparameter⟩ := List.mem_filter.mp hq
    rcases hs.supplied.parameter_cases q hqw with hqold | ⟨-, after, own, hqkind, he⟩
    · rw [hkind hqold] at hqparameter
      exact hbefore ▸ List.mem_filter.mpr ⟨hqold, hqparameter⟩
    · have hqu := hs.thinned.kind_eq (hwf.inside_of_child hqw).lt_size
      obtain rfl : own = name := by simpa [Tree.name?, hqu, hqkind, Kind.name?] using hqname
      generalize w.writtenType? q = type at he
      cases SyncTask.wants_front h.renameHandler_eq_nil _ he with
      | parameter hf hfname _ hnone =>
          rw [h.existing?_eq (Field.taken_of_mem hf hfname)] at hnone
          exact absurd (by simp [hname]) (List.find?_eq_none.mp hnone p hp)

omit htop hfile in
/-- A bare name that is stored at the end was stored there, or it is the member's own and the field
was not assigned. -/
theorem stored_before {f : Field} {e place value : NodeId} {name member : String}
    (hf : f ∈ k.fields) (hname : f.name = some member) (he : e ∈ v.significant k.body)
    (hmember : v.storedMember? fw.attrsMember e = some member)
    (ho : v.operands? e = some (place, value)) (hvalue : v.kind value = .reference name) :
    (e ∈ t.significant k.body ∧ t.storedMember? fw.attrsMember e = some member ∧
      t.operands? e = some (place, value) ∧ t.kind value = .reference name) ∨
      name = member ∧ k.state.get? f = none := by
  obtain ⟨g, hg, hgname, ⟨hkept, hsame⟩ | ⟨hmissing, place', r, m, y, hstore⟩⟩ :=
    hs.store_cases h he hmember
  · rw [hsame.storedMember?_eq h.wellFormed] at hmember
    rw [hsame.operands?_eq] at ho
    rw [hsame.kind_child h.wellFormed (Tree.mem_children_of_operands? ho).2] at hvalue
    exact .inl ⟨(List.mem_filter.mp hkept).1, hmember, ho, hvalue⟩
  · obtain ⟨-, rfl⟩ := Prod.mk.inj (Option.some.inj (hstore.operands?_eq.symm.trans ho))
    obtain rfl := h.eq_of_name hf hg hname hgname
    rw [hstore.value.kind_eq] at hvalue
    exact .inr ⟨(Kind.reference.inj hvalue).symm, hmissing⟩

omit htop hfile in
/-- A parameter whose name the last store of a field at the end stores gets the field's type. -/
theorem retype_mem_front {f : Field} {name member : String} {e place value p : NodeId}
    {type written : TypeExpr} (hf : f ∈ k.fields) (hname : f.name = some member)
    (he : ((v.significant k.body).reverse.find? fun e =>
      v.storedMember? fw.attrsMember e == some member) = some e)
    (ho : v.operands? e = some (place, value)) (hvalue : v.kind value = .reference name)
    (hp : ({ tree := t, framework := fw } : Source).firstNamed? name (t.parameters b.function) =
      some p) (htype : f.type = some type)
    (hwritten : t.declaredType? p = some written) (hne : written ≠ type) :
    .retype p type ∈ k.front := by
  have ht := h.wellFormed
  have hmem := List.mem_reverse.mp (List.mem_of_find?_eq_some he)
  have hstore := hs.stored_before h hf hname hmem (by simpa using List.find?_some he) ho hvalue
  cases hget : k.state.get? f with
  | none =>
      -- no store of the field is an old one, so the name is the field's
      obtain ⟨hold, hmember, -⟩ | ⟨rfl, -⟩ := hstore
      · exact absurd hmember ((h.get?_eq_none_iff hf hname).mp hget e hold)
      · rw [← h.existing?_eq (Field.taken_of_mem hf hname)] at hp
        exact SyncTask.retype_mem_front hf hname hget hp htype (h.tree_eq ▸ hwritten) hne
  | some a =>
      -- the last store of the field is an old one, and it stores this parameter
      obtain ⟨hold, hmember, ho, hvalue⟩ | ⟨-, hmissing⟩ := hstore
      · have hlast := (hs.find?_store_eq h hf hname hget).symm.trans he
        have ha : a = ({ tree := t, framework := fw } : Source).assignmentAt e := by
          have hstate := h.straight.get?_eq ht h.state?_eq hf hname
          rw [hget, hlast] at hstate
          exact Option.some.inj hstate
        have hstored := h.parts.storedParameter?_eq (s := { tree := t, framework := fw }) ht
          (Tree.mem_children_of_significant hold) (Tree.kind_of_storedMember? hmember) ho hvalue hp
        refine SyncTask.outdated_mem_front
          (h.mem_outdated hf (ha ▸ hget) hstored htype hwritten hne) ?_ htype
        exact h.parameters_eq ▸ List.mem_of_find?_eq_some hp
      · rw [hmissing] at hget
        cases hget

/-- **A field is stored from a parameter of its type.** -/
theorem eq_of_declaredType? (hnamed : ∀ f ∈ k.fields, f.name.isSome = true)
    (hshared : t.SharesTypes fw.attrsMember k.body k.fields) {f : Field} {member : String}
    {e p : NodeId} {type written : TypeExpr} (hf : f ∈ k.fields) (hname : f.name = some member)
    (he : ((v.significant k.body).reverse.find? fun e =>
      v.storedMember? fw.attrsMember e == some member) = some e)
    (hp : ({ tree := v, framework := fw } : Source).storedParameter? e = some p)
    (htype : f.type = some type) (hwritten : v.declaredType? p = some written) :
    written = type := by
  have ht := h.wellFormed
  have hmem : e ∈ v.significant k.body := List.mem_reverse.mp (List.mem_of_find?_eq_some he)
  have hmember : v.storedMember? fw.attrsMember e = some member := by
    simpa using List.find?_some he
  obtain ⟨place, value, name, ho, hvalue, hpv, hparameter, hpname, hfirst⟩ := hs.firstNamed?_after h
    htop hfile (Tree.mem_children_of_significant hmem) (Tree.kind_of_storedMember? hmember) hp
  have hfeeds : name ∈ t.feeders fw.attrsMember k.body member := by
    obtain ⟨hold, hmember, ho, hvalue⟩ | ⟨rfl, -⟩ :=
      hs.stored_before h hf hname hmem hmember ho hvalue
    · exact Tree.mem_feeders hold hmember ho hvalue
    · exact Tree.mem_feeders_self
  rw [Tree.declaredType?_of_parameter hparameter] at hwritten
  rcases hs.parameter_cases h hpv with ⟨hold, hpkind⟩ | ⟨g, hg, gname, hgname, -, hpkind, hgtype⟩
  · -- an old parameter, which was the first one of its name
    rw [hpkind] at hparameter
    rw [Tree.name?, hpkind, ← Tree.name?] at hpname
    have hbefore := hs.firstNamed?_before h hold hparameter hpname hfirst
    rw [hs.writtenType?_parameter h.parts ht hpv] at hwritten
    rcases hs.supplied.types p hold with ⟨hsame, hno⟩ | ⟨type', htype', hretype⟩
    · by_contra hne
      have hdeclared : t.declaredType? p = some written := by
        rw [Tree.declaredType?_of_parameter hparameter, ← hsame, hwritten]
      exact hno type (hs.retype_mem_front h hf hname he ho hvalue hbefore htype hdeclared hne)
    · obtain ⟨g, hg, own, gname, hown, hgname, hgfeeds, hgtype⟩ := h.field_of_retype hnamed hretype
      obtain rfl : own = name := Option.some.inj (hown.symm.trans hpname)
      have hsame := hshared f hf g hg member hname gname hgname own hfeeds hgfeeds
      rw [hwritten] at htype'
      rw [htype, hgtype] at hsame
      exact Option.some.inj (htype'.trans hsame.symm)
  · -- a parameter that was supplied for the field of its name
    obtain rfl : gname = name := by simpa [Tree.name?, hpkind, Kind.name?] using hpname
    have hsame := hshared f hf g hg member hname gname hgname gname hfeeds Tree.mem_feeders_self
    rw [hgtype, ← hsame, htype] at hwritten
    exact (Option.some.inj hwritten).symm

/-- The lambda is straight at the end. -/
theorem exists_straight_after
    (hplain : ∀ x ∈ t.significant k.body, t.PlainStatement fw.attrsMember x)
    (hattrs : ({ tree := t, framework := fw } : Source).lexical? k.body fw.attrsMember = none)
    (hfree : ∀ f ∈ k.fields, f.name ≠ some fw.attrsMember) :
    Construction.ofCall? { tree := v, framework := fw } call =
        some { component := b.component, call } ∧
      ∃ props, ({ component := b.component, call } : Construction).Straight
        { tree := v, framework := fw } lambda k.body props k.fields := by
  have ht := h.wellFormed
  have hv := hs.edited_last.wellFormed
  have hparts := h.parts.edited ht hs.edited_last
  have hc := (h.parts.ofCall?_eq ht hs.edited_last htop).trans h.ofCall?_eq
  have hfields := (h.parts.fields?_eq ht hs.edited_last htop
    (Construction.declared_of_ofCall? h.ofCall?_eq)).trans h.straight.fields_eq
  refine ⟨hc, Construction.exists_straight hv rfl hc hfields h.straight.nodup hparts.lambda_eq
    hparts.body_eq (hs.lexical?_attrs h htop hfile hattrs hfree) ?_⟩
  exact Tree.straight_of_plain hv hparts.kind_body fun x hx => hs.plainStatement_after h hplain hx

/-- **Nothing differs at the end.** -/
theorem upToDate_after (hnamed : ∀ f ∈ k.fields, f.name.isSome = true)
    (hshared : t.SharesTypes fw.attrsMember k.body k.fields) {props' : TypeExpr} {state : State}
    (hafter : ({ component := b.component, call } : Construction).Straight
      { tree := v, framework := fw } lambda k.body props' k.fields)
    (hstate : ({ component := b.component, call } : Construction).state?
      { tree := v, framework := fw } = some state) :
    (({ tree := v, framework := fw } : Source).gaps state k.fields).upToDate = true := by
  have hv := hs.edited_last.wellFormed
  have hmissing : (({ tree := v, framework := fw } : Source).gaps state k.fields).missing = [] := by
    refine List.filter_eq_nil_iff.mpr fun f hf hnone => ?_
    obtain ⟨name, hname⟩ := Option.isSome_iff_exists.mp (hnamed f hf)
    obtain ⟨x, hx, hmember⟩ := hs.exists_store_after h hf hname
    have hget : state.get? f = none := by simpa [State.assigns] using hnone
    exact (hafter.get?_eq_none_iff hv hstate hf hname).mp hget x hx hmember
  have hunknown : (({ tree := v, framework := fw } : Source).gaps state k.fields).unknown = [] := by
    refine hafter.unknown_eq_nil hv hstate fun x hx name hmember => ?_
    obtain ⟨f, hf, hname, -⟩ := hs.store_cases h hx hmember
    simp [Field.named?_eq_some h.straight.nodup hf hname]
  have houtdated :
      (({ tree := v, framework := fw } : Source).gaps state k.fields).outdated = [] := by
    refine List.filterMap_eq_nil_iff.mpr ?_
    rintro ⟨f, a⟩ hmem
    obtain ⟨hf, hget⟩ := hafter.get?_of_mem_assigned hv hstate hmem
    obtain ⟨name, hname⟩ := Option.isSome_iff_exists.mp (hnamed f hf)
    rw [hafter.get?_eq hv hstate hf hname] at hget
    obtain ⟨e, he, rfl⟩ := Option.map_eq_some_iff.mp hget
    refine Source.outdated?_assignmentAt_eq_none fun p type written hp htype hwritten => ?_
    exact hs.eq_of_declaredType? h htop hfile hnamed hshared hf hname he hp htype hwritten
  simp [Gaps.upToDate, hmissing, hunknown, houtdated]

end Builder.Stages

namespace Builder

variable {b : Builder} {fw : Framework} {t : Tree} {k : SyncTask}

/-- **Synchronising closes the gap.** -/
theorem synchronize_closes_gap {function : NodeId} {n : Nat} {v : Tree} (ht : t.WellFormed)
    (hfile : (t.kind t.root).isFile = true)
    (hb : ofFunction? { tree := t, framework := fw } function = some b)
    (htop : t.parent b.function = some t.root)
    (hk : SyncTask.of { tree := t, framework := fw } b = .ok k)
    (hplain : ∀ x ∈ t.significant k.body, t.PlainStatement fw.attrsMember x)
    (hown : t.StoresNamesakes fw.attrsMember k.body)
    (hnamed : ∀ f ∈ k.fields, f.name.isSome = true)
    (hnodup : (k.fields.filterMap (·.name)).Nodup)
    (hfree : ∀ f ∈ k.fields, f.name ≠ some fw.attrsMember)
    (hattrs : ({ tree := t, framework := fw } : Source).lexical? k.body fw.attrsMember = none)
    (hhandler : ∀ p, k.handler? = some p → ∀ name, t.name? p = some name →
      Field.taken k.fields name = false)
    (hrun : Change.run (b.synchronize fw) t = (.ok n, v)) :
    (∃ c gaps, b.construction? v = some c ∧
      Construction.ofCall? { tree := v, framework := fw } c.call = some c ∧
      c.gaps? { tree := v, framework := fw } = some gaps ∧ gaps.upToDate = true) ∧
    (∀ p ∈ v.parameters b.function,
      ∃ x ∈ ({ tree := v, framework := fw } : Source).namesBelow k.body,
        ({ tree := v, framework := fw } : Source).resolve? x = some p) ∧
    ((t.significant k.body).filter fun x =>
      x ∉ k.state.unknown.filterMap (·.anchor)).Sublist (v.significant k.body) := by
  obtain ⟨_, _, _, hblock, -⟩ := SyncTask.of_eq_ok hk
  obtain ⟨call, lambda, props, h⟩ := exists_straightTask ht hb hk hnodup hhandler hattrs
    (Tree.straight_of_plain ht hblock.kind_body hplain)
  obtain ⟨gone, w, u, hs⟩ := h.exists_stages hrun
  refine ⟨?_, ?_, ?_⟩
  · have hparts := h.parts.edited ht hs.edited_last
    obtain ⟨hc, props', hafter⟩ := hs.exists_straight_after h htop hfile hplain hattrs hfree
    obtain ⟨state, hstate⟩ : ∃ state, ({ component := b.component, call } : Construction).state?
        { tree := v, framework := fw } = some state := ⟨_, hafter.state_eq⟩
    refine ⟨{ component := b.component, call }, _, ?_, hc, ?_,
      hs.upToDate_after h htop hfile hnamed (hown.sharesTypes hnodup) hafter hstate⟩
    · simp [construction?, hparts.call_eq, hparts.kind_call]
    · simp [Construction.gaps?, hafter.fields_eq, hstate]
  · intro p hp
    have hunused := (edited_of_run ht hk hrun).2
    have hused := List.filter_eq_nil_iff.mp hunused p hp
    simpa using hused
  · have hstray {x : NodeId} : x ∈ k.state.unknown.filterMap (·.anchor) ↔ x ∈ k.strayWrites := by
      rw [h.mem_strayWrites_iff, ← h.straight.unknown_iff ht h.state?_eq, List.mem_filterMap]
    simp only [hstray]
    exact hs.sublist_significant h

/-- The statements `attrs.a = a; attrs.x = x; log(key); attrs.c = size(key)`. -/
def mixedStores : Draft (List NodeId) := do
  let first ← Draft.assignMember "attrs" "a" "a"
  let stray ← Draft.assignMember "attrs" "x" "x"
  let key ← Draft.reference "key"
  let log ← Draft.call "log" [key] none
  let last ← computed "c" "size" (Draft.reference "key")
  return [first, stray, log, last]

/-- A parameter that is stored and one that is not have other types than their fields, a field is
not assigned, a write names no field, and a parameter has no use. -/
theorem synchronize_closes_gap_mixed :
    let t := ((propsBuilder ["a", "b", "c"] [("a", "String"), ("old", "Int"), ("b", "String"),
      ("key", "Int")] mixedStores).run (Tree.ofFile "F")).2
    let s : Source := { tree := t, framework := {} }
    let b : Builder := { component := { decl := 9, base := 8 }, function := 44 }
    t.WellFormed ∧ ofFunction? s 44 = some b ∧ ∃ k v, SyncTask.of s b = .ok k ∧ k.body = 39 ∧
      (s.gaps k.state k.fields).upToDate = false ∧
      Change.run (b.synchronize {}) t = (.ok 5, v) ∧
      (∃ c gaps, b.construction? v = some c ∧
        Construction.ofCall? { tree := v, framework := {} } c.call = some c ∧
        c.gaps? { tree := v, framework := {} } = some gaps ∧ gaps.upToDate = true) ∧
      (v.parameters 44).filterMap v.name? = ["a", "b", "key"] ∧
      [23, 31, 38].Sublist (v.significant 39) := by
  intro t s b
  have hfacts : t.WellFormed ∧ (t.kind t.root).isFile = true ∧ ofFunction? s 44 = some b ∧
      t.parent 44 = some t.root ∧ (∀ x ∈ t.significant 39, t.PlainBelow "attrs" x) ∧
      t.StoresNamesakes "attrs" 39 ∧ s.lexical? 39 "attrs" = none ∧
      ((SyncTask.of s b).toOption.map fun k => decide (k.body = 39 ∧
        (∀ f ∈ k.fields, f.name.isSome = true) ∧ (k.fields.filterMap (·.name)).Nodup ∧
        (∀ f ∈ k.fields, f.name ≠ some "attrs") ∧ k.handler? = none ∧
        (s.gaps k.state k.fields).upToDate = false ∧
        (t.significant 39).filter (fun x => x ∉ k.state.unknown.filterMap (·.anchor)) =
          [23, 31, 38])) = some true := by decide +kernel
  have hresult : (Change.run (b.synchronize {}) t).1 = .ok 5 ∧
      ((Change.run (b.synchronize {}) t).2.parameters 44).filterMap
        (Change.run (b.synchronize {}) t).2.name? = ["a", "b", "key"] := by decide +kernel
  obtain ⟨ht, hfile, hb, htop, hplain, hown, hattrs, htask⟩ := hfacts
  obtain ⟨k, hk, hbody, hnamed, hnodup, hfree, hhandler, hgaps, hkept⟩ := exists_of_checked htask
  rcases hrun : Change.run (b.synchronize {}) t with ⟨n, v⟩
  rw [hrun] at hresult
  obtain ⟨rfl, hnames⟩ : n = .ok 5 ∧ _ := hresult
  rw [← hbody] at hplain hown hattrs hkept
  obtain ⟨hclosed, -, hsub⟩ := synchronize_closes_gap ht hfile hb htop hk
    (fun x hx => (hplain x hx).plainStatement ht) hown hnamed hnodup hfree hattrs
    (fun p hp => by simp [hhandler] at hp) hrun
  rw [hkept, hbody] at hsub
  exact ⟨ht, hb, k, v, hk, hbody, hgaps, rfl, hclosed, hnames, hsub⟩

end Builder

end ComponentAudit
