import ComponentAudit.Proofs.Edit.Order
import ComponentAudit.Proofs.Source.Scopes

set_option autoImplicit false

/-! # Parameters that go in front of another one

While the fields are gone through, new parameters go behind the last parameter that was come by, and
in front of all others when there was none. Whether a new parameter stands in front of a given one
is decided by that parameter (`SyncTask.LeadsAhead`), however many were inserted in between.

Main statement: `SyncTask.exists_front`.
-/

namespace ComponentAudit

/-! ## Pairs in lists -/

/-- The order of two members is that of every list without repetitions around. -/
theorem pair_sublist_of_sublist {l l' : List NodeId} {p q : NodeId} (hsub : l.Sublist l')
    (hnodup : l'.Nodup) (hp : p ∈ l) (hq : q ∈ l) (h : [p, q].Sublist l') : [p, q].Sublist l := by
  obtain ⟨before, after, rfl⟩ := List.append_of_mem hq
  rw [pair_sublist_iff_mem_left (hsub.nodup hnodup)]
  rcases List.mem_append.mp hp with hp | hp
  · exact hp
  · -- otherwise the two would stand in both orders
    obtain ⟨before', after', rfl⟩ := List.append_of_mem (hsub.subset hq)
    have hbefore := (pair_sublist_iff_mem_left hnodup).mp h
    have hmem : p ∈ q :: after' := by
      rcases List.mem_cons.mp hp with rfl | hp
      · exact List.mem_cons_self
      · refine List.mem_cons_of_mem q ((pair_sublist_iff_mem_right hnodup).mp ?_)
        exact ((pair_sublist_iff_mem_right (hsub.nodup hnodup)).mpr hp).trans hsub
    exact absurd rfl ((List.nodup_append.mp hnodup).2.2 p hbefore p hmem)

theorem pair_sublist_filter_iff {l : List NodeId} {test : NodeId → Bool} {p q : NodeId} :
    [p, q].Sublist (l.filter test) ↔ [p, q].Sublist l ∧ test p = true ∧ test q = true := by
  constructor
  · intro h
    exact ⟨h.trans List.filter_sublist, (List.mem_filter.mp (h.subset (by simp))).2,
      (List.mem_filter.mp (h.subset (by simp))).2⟩
  · rintro ⟨h, hp, hq⟩
    simpa [hp, hq] using h.filter test

/-- What is inserted stands in front of a member exactly if its anchor does. -/
theorem InsertedAfter.pair_sublist_iff {anchor : Option NodeId} {id m : NodeId} {l l' : List NodeId}
    (h : InsertedAfter anchor [id] l l') (hnodup : l'.Nodup) (hanchor : ∀ a ∈ anchor, a ∈ l)
    (hm : m ∈ l) : [id, m].Sublist l' ↔ ∀ a ∈ anchor, [a, m].Sublist l := by
  have hnodup' := h.sublist.nodup hnodup
  obtain ⟨before, after, rfl, rfl, hlast⟩ := h
  rw [List.append_assoc, List.singleton_append] at hnodup ⊢
  rw [pair_sublist_iff_mem_right hnodup]
  cases anchor with
  | none =>
      obtain rfl := List.getLast?_eq_none_iff.mp hlast
      exact iff_of_true hm fun a ha => absurd ha (Option.not_mem_none a)
  | some a =>
      have ha := hanchor a rfl
      rw [Option.filter_some_pos (by simpa using ha)] at hlast
      obtain ⟨init, rfl⟩ := List.getLast?_eq_some_iff.mp hlast
      rw [List.append_assoc, List.singleton_append] at hnodup' ⊢
      simp [pair_sublist_iff_mem_right hnodup']

theorem InsertedAfter.not_mem {anchor : Option NodeId} {id : NodeId} {l l' : List NodeId}
    (h : InsertedAfter anchor [id] l l') (hnodup : l'.Nodup) : id ∉ l := by
  obtain ⟨before, after, rfl, rfl, -⟩ := h
  rw [List.append_assoc, List.singleton_append] at hnodup
  exact (List.nodup_middle.mp hnodup).notMem

/-! ## Edits and a parameter -/

namespace Edit

/-- What edits do in front of a parameter: whether the next one goes there, given the anchor, and
the names of those that were put there. -/
structure Ahead (t : Tree) (list handler : NodeId) (es : List Edit) (anchor : Option Anchor)
    (next : Prop) (names : String → Prop) : Prop where
  anchor : ∃ n : Option NodeId, anchor.map (·.node? (outcome t es).1) = n.map some ∧
    (∀ a ∈ n, a ∈ (outcome t es).2.children list) ∧
    ((∀ a ∈ n, [a, handler].Sublist ((outcome t es).2.children list)) ↔ next)
  names : ∀ {name : String}, names name ↔ ∃ q, q ∉ t.children list ∧
    [q, handler].Sublist ((outcome t es).2.children list) ∧ (outcome t es).2.name? q = some name

namespace Ahead

variable {t : Tree} {list handler : NodeId} {es : List Edit} {anchor : Option Anchor}
  {next next' : Prop} {names names' : String → Prop}

theorem nil : Ahead t list handler [] none True fun _ => False where
  anchor := ⟨none, rfl, by simp, by simp⟩
  names := by
    refine iff_of_false id ?_
    rintro ⟨q, hq, hsub, -⟩
    exact hq (hsub.subset List.mem_cons_self)

theorem congr (h : Ahead t list handler es anchor next names) (hnext : next ↔ next')
    (hnames : ∀ name, names name ↔ names' name) : Ahead t list handler es anchor next' names' where
  anchor := by
    obtain ⟨n, hn, hmem, hiff⟩ := h.anchor
    exact ⟨n, hn, hmem, hiff.trans hnext⟩
  names := (hnames _).symm.trans h.names

variable {b : Builder} {call lambda body : NodeId} (hparts : b.Parts t list call lambda body)
  (ht : t.WellFormed) (hhandler : handler ∈ t.children list)
  (hes : ∀ e ∈ es, e.Supplies t list body)

include hparts ht hes

/-- **An edit that inserts no parameter** changes nothing. -/
theorem edit (h : Ahead t list handler es anchor next names) {e : Edit}
    (he : e.Supplies t list body)
    (hother : ∀ after name type, e ≠ .addParameter list after name type) :
    Ahead t list handler (es ++ [e]) anchor next names := by
  have hs := supplied_outcome hparts ht hes
  obtain ⟨hkept, heffect⟩ := effect_concat hparts ht hes he hs
  have hlist := heffect.children_list_eq hother
  refine ⟨?_, fun {name} => h.names.trans (exists_congr fun q => ?_)⟩
  · obtain ⟨n, hn, hmem, hiff⟩ := h.anchor
    rw [hlist]
    refine ⟨n, ?_, hmem, hiff⟩
    rw [outcome_concat, step]
    exact Track.node?_append hn
  · rw [hlist]
    refine and_congr_right fun _ => and_congr_right fun hq => ?_
    rw [Tree.name?, Tree.name?, hkept.parameter q (hq.subset List.mem_cons_self)]

include hhandler

/-- **A parameter that was there** becomes the anchor. -/
theorem lead (h : Ahead t list handler es anchor next names) {q : NodeId}
    (hq : q ∈ t.children list) :
    Ahead t list handler es (some (.existing q)) ([q, handler].Sublist (t.children list))
      names where
  anchor := by
    have hs := supplied_outcome hparts ht hes
    refine ⟨some q, rfl, fun a ha => ?_, ?_⟩
    · obtain rfl := Option.mem_some.mp ha
      exact hs.parameters.subset hq
    · simp only [Option.mem_def, Option.some.injEq, forall_eq']
      exact ⟨pair_sublist_of_sublist hs.parameters (hs.kept.wellFormed.nodup_children list) hq
        hhandler, fun hsub => hsub.trans hs.parameters⟩
  names := h.names

/-- **A parameter that is inserted** becomes the anchor, and its name counts if it stands in front
of the given one. -/
theorem insert (h : Ahead t list handler es anchor next names) (new : String)
    (type : Option TypeExpr) :
    Ahead t list handler (es ++ [.addParameter list anchor new type])
      (some (.pending (Plan.insertions es))) next fun name => names name ∨ name = new ∧ next := by
  have hs := supplied_outcome hparts ht hes
  have he : (Edit.addParameter list anchor new type).Supplies t list body := rfl
  obtain ⟨hkept, heffect⟩ := effect_concat hparts ht hes he hs
  obtain ⟨id, hcreated, hkind, hins⟩ := heffect.exists_parameter
  obtain ⟨n, hn, hmem, hiff⟩ := h.anchor
  have hanchor : anchor.bind (·.node? (outcome t es).1) = n := by
    cases anchor <;> cases n <;> simp_all
  rw [hanchor] at hins
  have hnodup := hkept.wellFormed.nodup_children list
  have hold := hs.parameters.subset hhandler
  have hpair := (hins.pair_sublist_iff hnodup hmem hold).trans hiff
  have hname {q : NodeId} (hq : q ∈ (outcome t es).2.children list) :
      (outcome t (es ++ [.addParameter list anchor new type])).2.name? q =
        (outcome t es).2.name? q := by
    rw [Tree.name?, Tree.name?, hkept.parameter q hq]
  refine ⟨⟨some id, ?_, fun a ha => ?_, ?_⟩, fun {name} => ⟨?_, ?_⟩⟩
  · rw [hcreated, ← length_outcome t es]
    simp [Anchor.node?]
  · obtain rfl := Option.mem_some.mp ha
    exact hins.mem_iff.mpr (.inr List.mem_cons_self)
  · simpa using hpair
  · rintro (hnames | ⟨rfl, hnext⟩)
    · obtain ⟨q, hq, hsub, heq⟩ := h.names.mp hnames
      exact ⟨q, hq, hsub.trans hins.sublist, (hname (hsub.subset List.mem_cons_self)).trans heq⟩
    · refine ⟨id, fun hid => ?_, hpair.mpr hnext, by simp [Tree.name?, hkind, Kind.name?]⟩
      exact hins.not_mem hnodup (hs.parameters.subset hid)
  · rintro ⟨q, hq, hsub, heq⟩
    rcases hins.mem_iff.mp (hsub.subset List.mem_cons_self) with hmem | hid
    · exact .inl (h.names.mpr ⟨q, hq,
        pair_sublist_of_sublist hins.sublist hnodup hmem hold hsub, (hname hmem).symm.trans heq⟩)
    · obtain rfl := List.mem_singleton.mp hid
      have hnew : new = name := by simpa [Tree.name?, hkind, Kind.name?] using heq
      exact .inr ⟨hnew.symm, hpair.mp hsub⟩

end Ahead

end Edit

/-! ## Going through the fields -/

namespace SyncTask

/-- The parameter that is come by with a field: the one that is stored in it, or the one that it
finds when it is not assigned. -/
def leads? (k : SyncTask) (f : Field) : Option NodeId :=
  f.name.bind fun name =>
    match k.state.get? f with
    | some a =>
      match a.origin with
      | .parameter decl => if decl ∈ k.parameters then some decl else none
      | .mixed => none
    | none => k.existing? name

/-- Whether what is inserted after some fields goes in front of a parameter: the last parameter that
was come by stands in front of it, or there was none. -/
def LeadsAhead (k : SyncTask) (handler : NodeId) (fields : List Field) : Prop :=
  ∀ q ∈ (fields.filterMap k.leads?).getLast?, [q, handler].Sublist k.parameters

/-- Whether a parameter of some name is inserted in front of a given one: a field of that name has
neither an assignment nor a parameter. -/
def PutsAhead (k : SyncTask) (handler : NodeId) (fields : List Field) (name : String) : Prop :=
  ∃ i < fields.length, ∃ f ∈ fields[i]?, f.name = some name ∧ k.state.get? f = none ∧
    k.existing? name = none ∧ k.LeadsAhead handler (fields.take i)

instance (k : SyncTask) (handler : NodeId) (fields : List Field) :
    Decidable (k.LeadsAhead handler fields) :=
  inferInstanceAs (Decidable (∀ q ∈ (fields.filterMap k.leads?).getLast?, _))

instance (k : SyncTask) (handler : NodeId) (fields : List Field) (name : String) :
    Decidable (k.PutsAhead handler fields name) :=
  inferInstanceAs (Decidable (∃ i < fields.length, ∃ f ∈ fields[i]?, _))

variable {k : SyncTask} {handler : NodeId} {fields : List Field} {f : Field} {name : String}

theorem leadsAhead_concat_of_some {q : NodeId} (h : k.leads? f = some q) :
    k.LeadsAhead handler (fields ++ [f]) ↔ [q, handler].Sublist k.parameters := by
  simp [LeadsAhead, h]

theorem leadsAhead_concat_of_none (h : k.leads? f = none) :
    k.LeadsAhead handler (fields ++ [f]) ↔ k.LeadsAhead handler fields := by
  simp [LeadsAhead, h]

theorem putsAhead_concat : k.PutsAhead handler (fields ++ [f]) name ↔
    k.PutsAhead handler fields name ∨ f.name = some name ∧ k.state.get? f = none ∧
      k.existing? name = none ∧ k.LeadsAhead handler fields := by
  unfold PutsAhead
  constructor
  · rintro ⟨i, hi, g, hg, hspec⟩
    rw [List.length_append, List.length_singleton, Nat.lt_succ_iff_lt_or_eq] at hi
    rcases hi with hi | rfl
    · rw [List.getElem?_append_left hi] at hg
      rw [List.take_append_of_le_length (Nat.le_of_lt hi)] at hspec
      exact .inl ⟨i, hi, g, hg, hspec⟩
    · obtain rfl : f = g := by simpa using hg
      rw [List.take_left] at hspec
      exact .inr hspec
  · rintro (⟨i, hi, g, hg, hspec⟩ | hspec)
    · refine ⟨i, by simp; omega, g, ?_, ?_⟩
      · rwa [List.getElem?_append_left hi]
      · rwa [List.take_append_of_le_length (Nat.le_of_lt hi)]
    · refine ⟨fields.length, by simp, f, by simp, ?_⟩
      rwa [List.take_left]

/-- The edits that come before those for the fields. -/
def base (k : SyncTask) : Plan := k.retypeOutdated ++ k.renameHandler

/-- Whether a plan in the making, for the fields that were gone through, does what is said in front
of a parameter; `t` is the tree that the edits before leave. -/
def Goes (k : SyncTask) (t : Tree) (handler : NodeId) (p : Progress) (fields : List Field) : Prop :=
  ∃ es, p.plan = k.base ++ es ∧ (∀ e ∈ es, e.Supplies t k.list k.body) ∧
    Edit.Ahead t k.list handler es p.parameter (k.LeadsAhead handler fields)
      (k.PutsAhead handler fields)

section

variable {b : Builder} {t : Tree} {call lambda : NodeId} {p : Progress}
  (hparts : b.Parts t k.list call lambda k.body) (ht : t.WellFormed)
  (hparameters : k.parameters =
    (t.children k.list).filter fun p => (k.source.tree.kind p).isParameter)
  (hbase : k.base.insertions = 0) (hhandler : handler ∈ k.parameters)

/-- A field with which no parameter is come by, and none is inserted. -/
theorem Goes.skip (h : k.Goes t handler p fields) (hleads : k.leads? f = none)
    (hputs : f.name = none ∨ k.state.get? f ≠ none) : k.Goes t handler p (fields ++ [f]) := by
  obtain ⟨es, hplan, hes, hahead⟩ := h
  refine ⟨es, hplan, hes, hahead.congr (leadsAhead_concat_of_none hleads).symm fun name => ?_⟩
  rw [putsAhead_concat, or_iff_left]
  rintro ⟨hname, hmissing, -⟩
  exact hputs.elim (by simp [hname]) (absurd hmissing)

include hparts ht

/-- An edit that inserts no parameter. -/
theorem Goes.edit (h : k.Goes t handler p fields) {e : Edit} (he : e.Supplies t k.list k.body)
    (hother : ∀ after name type, e ≠ .addParameter k.list after name type)
    (statement : Option Anchor) :
    k.Goes t handler { p with plan := p.plan ++ [e], statement } fields := by
  obtain ⟨es, hplan, hes, hahead⟩ := h
  refine ⟨es ++ [e], by simp [hplan], fun e' he' => ?_, hahead.edit hparts ht hes he hother⟩
  rcases List.mem_append.mp he' with he' | he'
  · exact hes e' he'
  · rwa [List.mem_singleton.mp he']

include hparameters hhandler

/-- A field with which a parameter is come by. -/
theorem Goes.lead (h : k.Goes t handler p fields) {q : NodeId} (hleads : k.leads? f = some q)
    (hq : q ∈ k.parameters) :
    k.Goes t handler { p with parameter := some (.existing q) } (fields ++ [f]) := by
  obtain ⟨es, hplan, hes, hahead⟩ := h
  rw [hparameters] at hq hhandler
  obtain ⟨hqlist, hqkind⟩ := List.mem_filter.mp hq
  obtain ⟨hlist, hkind⟩ := List.mem_filter.mp hhandler
  refine ⟨es, hplan, hes, (hahead.lead hparts ht hlist hes hqlist).congr ?_ fun name => ?_⟩
  · rw [leadsAhead_concat_of_some hleads, hparameters, pair_sublist_filter_iff]
    simp only [hqkind, hkind, and_self, and_true]
  · rw [putsAhead_concat, or_iff_left]
    rintro ⟨hname, hmissing, hnone, -⟩
    simp [leads?, hname, hmissing, hnone] at hleads

include hbase

/-- A field that gets a new parameter. -/
theorem Goes.insert (h : k.Goes t handler p fields) (hname : f.name = some name)
    (hmissing : k.state.get? f = none) (hnone : k.existing? name = none) :
    k.Goes t handler
      { p with
        plan := p.plan ++ [.addParameter k.list p.parameter name f.type]
        parameter := some (.pending p.plan.insertions) } (fields ++ [f]) := by
  obtain ⟨es, hplan, hes, hahead⟩ := h
  have hlist : handler ∈ t.children k.list := (List.mem_filter.mp (hparameters ▸ hhandler)).1
  have hcount : p.plan.insertions = Plan.insertions es := by
    rw [hplan, Plan.insertions, List.countP_append, ← Plan.insertions, hbase, Nat.zero_add]
    rfl
  have hleads : k.leads? f = none := by simp [leads?, hname, hmissing, hnone]
  refine ⟨es ++ [.addParameter k.list p.parameter name f.type], by simp [hplan], fun e he => ?_, ?_⟩
  · rcases List.mem_append.mp he with he | he
    · exact hes e he
    · rw [List.mem_singleton.mp he]
      rfl
  · rw [hcount]
    refine (hahead.insert hparts ht hlist hes name f.type).congr
      (leadsAhead_concat_of_none hleads).symm fun new => ?_
    rw [putsAhead_concat]
    refine or_congr_right ⟨?_, ?_⟩
    · rintro ⟨rfl, hnext⟩
      exact ⟨hname, hmissing, hnone, hnext⟩
    · rintro ⟨hnew, -, -, hnext⟩
      exact ⟨Option.some.inj (hnew.symm.trans hname), hnext⟩

/-- **The step**: what one field adds. -/
theorem goes_planField (h : k.Goes t handler p fields) (f : Field) :
    k.Goes t handler (k.planField p f) (fields ++ [f]) := by
  have hmem {q : NodeId} (hq : q ∈ k.parameters) : q ∈ t.children k.list :=
    (List.mem_filter.mp (hparameters ▸ hq)).1
  unfold planField
  cases hname : f.name with
  | none => exact h.skip (by simp [leads?, hname]) (.inl hname)
  | some name =>
      cases hget : k.state.get? f with
      | some a =>
          have hskip (hleads : k.leads? f = none) : k.Goes t handler
              { p with statement := (k.passField p a).statement } (fields ++ [f]) :=
            h.skip hleads (.inr (by simp [hget]))
          simp only [passField] at hskip ⊢
          cases horigin : a.origin with
          | mixed => exact hskip (by simp [leads?, hname, hget, horigin])
          | parameter decl =>
              by_cases hdecl : decl ∈ k.parameters
              · have hleads : k.leads? f = some decl := by
                  simp [leads?, hname, hget, horigin, hdecl]
                simp only [hdecl, if_true]
                exact h.lead hparts ht hparameters hhandler hleads hdecl
              · simp only [hdecl, if_false]
                exact hskip (by simp [leads?, hname, hget, horigin, hdecl])
      | none =>
          have hparameter : k.Goes t handler (k.supplyParameter p f name) (fields ++ [f]) := by
            rcases k.supplyParameter_cases p f name with
              ⟨q, hq, ⟨-, heq⟩ | ⟨type, written, -, -, -, heq⟩⟩ | ⟨hnone, heq⟩
            · have hqmem := List.mem_of_find?_eq_some hq
              rw [heq]
              exact h.lead hparts ht hparameters hhandler (by simp [leads?, hname, hget, hq]) hqmem
            · have hqmem := List.mem_of_find?_eq_some hq
              rw [heq]
              have hretyped := h.edit hparts ht (e := .retype q type) (hmem hqmem) (by simp)
                p.statement
              exact hretyped.lead hparts ht hparameters hhandler
                (by simp [leads?, hname, hget, hq]) hqmem
            · rw [heq]
              exact h.insert hparts ht hparameters hbase hhandler hname hget hnone
          have he : (Edit.addAssignment k.body (k.supplyParameter p f name).statement
              k.source.framework.attrsMember name).Supplies t k.list k.body := rfl
          exact hparameter.edit hparts ht he (by simp) _

/-- **The run**: which names there are in front of a parameter when all fields were gone through. -/
theorem exists_front : ∃ es, k.front = k.base ++ es ∧ (∀ e ∈ es, e.Supplies t k.list k.body) ∧
    ∀ name, k.PutsAhead handler k.fields name ↔ ∃ q, q ∉ t.children k.list ∧
      [q, handler].Sublist ((Edit.outcome t es).2.children k.list) ∧
        (Edit.outcome t es).2.name? q = some name := by
  have hfold (rest done : List Field) {p : Progress} (hp : k.Goes t handler p done) :
      k.Goes t handler (rest.foldl k.planField p) (done ++ rest) := by
    induction rest generalizing done p with
    | nil => simpa using hp
    | cons f rest ih =>
        have hstep := goes_planField hparts ht hparameters hbase hhandler hp f
        simpa using ih (done ++ [f]) hstep
  have hstart : k.Goes t handler { plan := k.base } [] := by
    refine ⟨[], by simp, by simp, Edit.Ahead.nil.congr ?_ fun name => ?_⟩
    · simp [LeadsAhead]
    · simp [PutsAhead]
  obtain ⟨es, hplan, hes, hahead⟩ := hfold k.fields [] hstart
  exact ⟨es, hplan, hes, fun name => hahead.names⟩

end

end SyncTask

end ComponentAudit
