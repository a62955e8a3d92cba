import ComponentAudit.Proofs.Assign.Kept
import ComponentAudit.Proofs.Flow.Unbroken

set_option autoImplicit false

/-! # Lambdas that assign the props one after the other

In a straight lambda body (`Tree.Straight`) nothing repeats or leaves, and the props are assigned by
statements of the body itself, not by parts of other statements. Then the analysis knows all: for
each field the last statement that assigns it, and every write that names no field.

Main statements: `Solver.get?_straight` and `Solver.unknown_straight`.
-/

namespace ComponentAudit

namespace Assignment

/-- What is known of one write is the write itself, if it has a place. -/
theorem Sums.eq_of_singleton {t : Tree} (ht : t.WellFormed) {a b : Assignment} {e : NodeId}
    (he : a.anchor = some e) (h : Sums t {a} b) : b = a := by
  have horigin : b.origin = a.origin := by
    have hiff (p : NodeId) : b.origin = .parameter p ↔ a.origin = .parameter p := by
      simpa using h.origin p
    cases ha : a.origin with
    | parameter p => exact (hiff p).mpr ha
    | mixed =>
        cases hb : b.origin with
        | parameter p => exact absurd ((hiff p).mp hb) (by simp [ha])
        | mixed => rfl
  have hanchor : b.anchor = a.anchor := by
    obtain ⟨c, hc, hce⟩ := h.nearest e (by rintro _ rfl; exact ⟨e, he, .refl⟩)
    obtain ⟨x, hx, hxc⟩ := h.around c hc a rfl
    obtain rfl : x = e := Option.some.inj (hx.symm.trans he)
    rcases Tree.under_iff_eq_or_inside.mp hce with heq | hinside
    · rw [hc, ← heq, he]
    · exact absurd hinside (ht.not_inside_of_under hxc)
  cases a
  cases b
  simp_all

end Assignment

/-! ## Code without loops -/

namespace Solver

/-- **What is known of a field at the end**, when the last write to it is the same on all paths. -/
theorem get?_atSink {s : Solver} {c : Code} {owner : NodeId} (hflow : s.flow = c.flow owner)
    (hplain : ∀ e, .step (.exit true) e ∉ c.parts) (hloop : ∀ e a b, .loop e a b ∉ c.parts)
    (hexit : (c.flow owner).Reaches entryId exitId) (ht : s.tree.WellFormed) {fld : Field}
    {found : Option Assignment}
    (hsink : s.writeOf? fld c.sinkId = none) (hanchor : ∀ a, found = some a → a.anchor ≠ none)
    (h : ∀ p, (c.flow owner).Path entryId p exitId →
      p.reverse.findSome? (s.writeOf? fld) = found) :
    s.atSink.get? fld = found := by
  have hexact : s.Exact c.sinkId s.atSink := by
    rw [← Code.sink_flow c owner, ← hflow]
    exact exact_atSink ht (hflow ▸ c.linked_flow owner) (hflow ▸ not_cycle_of_forward hloop owner)
  have hnearest {ch : List InstrId} (hch : s.flow.Chain c.sinkId ch) :
      s.nearest? fld ch = found := by
    rw [hflow] at hch
    obtain ⟨p, hp, rfl⟩ := Code.exists_path_of_chain hplain hexit hch
    rw [nearest?_cons, hsink, Option.none_or]
    exact h p hp
  obtain ⟨ch, hch⟩ := hexact.chain
  have hassigns := hexact.assigns_iff fld
  cases hfound : found with
  | none =>
      have hnot : s.atSink.assigns fld ≠ true := by
        intro htrue
        have := hassigns.mp htrue ch hch
        rw [hnearest hch, hfound] at this
        cases this
      simpa [State.assigns] using hnot
  | some a =>
      obtain ⟨e, he⟩ := Option.ne_none_iff_exists'.mp (hanchor a hfound)
      have hset : s.nearestWrites fld c.sinkId = {a} := by
        ext b
        constructor
        · rintro ⟨ch', hch', hb⟩
          rw [hnearest hch', hfound] at hb
          exact (Option.some.inj hb).symm
        · rintro rfl
          exact ⟨ch, hch, (hnearest hch).trans hfound⟩
      obtain ⟨b, hb⟩ : ∃ b, s.atSink.get? fld = some b := by
        refine Option.isSome_iff_exists.mp (hassigns.mpr fun ch' hch' => ?_)
        rw [hnearest hch', hfound]
        rfl
      have hsums := hexact.sums fld b hb
      rw [hset] at hsums
      rw [hb, hsums.eq_of_singleton ht he]

end Solver

/-! ## Stores into the members of a name -/

namespace Tree

variable {t : Tree} {base name : String} {e : NodeId}

/-- The member of a name that an assignment stores into. -/
def storedMember? (t : Tree) (base : String) (e : NodeId) : Option String :=
  (t.memberStore? e).bind fun store => if store.1 = base then some store.2 else none

theorem storedMember?_eq_some_iff :
    t.storedMember? base e = some name ↔ t.memberStore? e = some (base, name) := by
  unfold storedMember?
  cases t.memberStore? e with
  | none => simp
  | some store => simp [Prod.ext_iff]

theorem form_of_block {x : NodeId} (h : t.kind x = .block) : t.form .statement x = .listing := by
  simp [form, h]

theorem form_of_memberStore? {member : String} (h : t.memberStore? e = some (base, member))
    (u : Usage) : t.form u e = .store := by
  obtain ⟨hk, place, stored, -, -, ho, -⟩ := memberStore?_eq_some_iff.mp h
  cases u <;> simp [form, hk, ho]

/-- Whether a block is run statement by statement to its end, and whatever is stored into a member
of a name is stored by one of the statements. -/
structure Straight (t : Tree) (base : String) (body : NodeId) : Prop where
  unbroken : t.Unbroken .statement body
  stores : ∀ {u : Usage} {e : NodeId} {name : String}, t.Involves .statement body u e →
    t.memberStore? e = some (base, name) → e ∈ t.significant body

namespace Straight

variable {body : NodeId} (h : t.Straight base body) (ht : t.WellFormed)
  (hbody : t.kind body = .block)

include h

theorem loopFree : t.LoopFree body := fun u x hx => (h.unbroken u x hx).1

include hbody ht

/-- A statement stores into a member of the name if it is such a store itself, and then last. -/
theorem filter_of_statement {x : NodeId} (hx : x ∈ t.significant body) {w : List NodeId}
    {o : Outcome} (hw : t.Runs (.one .statement x) w o) :
    w.filter (fun e => (t.storedMember? base e).isSome) =
      [x].filter fun e => (t.storedMember? base e).isSome := by
  have hneeds : t.Needs .statement body .statement x := .item (form_of_block hbody) hx
  -- a store inside the statement would not be a statement of the block
  have hinside {e : NodeId} (he : t.Inside e x) {u : Usage}
      (hinvolves : t.Involves .statement x u e) : (t.storedMember? base e).isSome = false := by
    refine Bool.eq_false_iff.mpr fun hsome => ?_
    obtain ⟨name, hname⟩ := Option.isSome_iff_exists.mp hsome
    have hmem := h.stores (.head hneeds hinvolves) (storedMember?_eq_some_iff.mp hname)
    have hparent := ht.mem_children_iff.mp (mem_children_of_significant hmem)
    obtain ⟨p, hp, hunder⟩ := he.exists_parent
    obtain rfl : body = p := Option.some.inj (hparent.symm.trans hp)
    exact ht.not_inside_of_under hunder (ht.inside_of_child (mem_children_of_significant hx))
  have hoperands {v : List NodeId} {o : Outcome}
      (hv : t.Runs (.all .expression (t.operandsOf .statement x)) v o) :
      v.filter (fun e => (t.storedMember? base e).isSome) = [] := by
    refine List.filter_eq_nil_iff.mpr fun e he => ?_
    obtain ⟨y, hy, u, hinvolves, -⟩ := hv.involves he
    have hy' : t.Needs .statement x .expression y := .operand hy
    have hyx := ht.inside_of_needs hy'
    have hex : t.Inside e x := by
      by_cases hey : e = y
      · exact hey ▸ hyx
      · exact (ht.inside_of_involves hinvolves hey).trans hyx
    simp [hinside hex (.head hy' hinvolves)]
  by_cases hform : t.form .statement x = .store
  · cases hw with
    | stores _ hv => rw [List.filter_append, hoperands hv, List.nil_append]
    | operandLeaves hv =>
        have := Unbroken.completes hv fun y hy => (h.unbroken.needs hneeds).needs (.operand hy)
        cases this
    | _ => simp_all
  · have hself : (t.storedMember? base x).isSome = false := by
      refine Bool.eq_false_iff.mpr fun hsome => hform ?_
      obtain ⟨name, hname⟩ := Option.isSome_iff_exists.mp hsome
      exact form_of_memberStore? (storedMember?_eq_some_iff.mp hname) _
    rw [List.filter_singleton, hself]
    refine List.filter_eq_nil_iff.mpr fun e he => ?_
    obtain ⟨u, hinvolves, hstore⟩ := hw.involves he
    by_cases hex : e = x
    · simp [hex, hself]
    · simp [hinside (ht.inside_of_involves hinvolves hex) hinvolves]

/-- **What a run of the block stores into members of the name**: what its statements do,
in order. -/
theorem filter_of_finishes {w : List NodeId} (hw : t.Finishes body w) :
    w.filter (fun e => (t.storedMember? base e).isSome) =
      (t.significant body).filter fun e => (t.storedMember? base e).isSome := by
  have hall {xs v : List NodeId} {o : Outcome} (hxs : ∀ x ∈ xs, x ∈ t.significant body)
      (hv : t.Runs (.all .statement xs) v o) :
      v.filter (fun e => (t.storedMember? base e).isSome) =
        xs.filter fun e => (t.storedMember? base e).isSome := by
    induction xs generalizing v o with
    | nil =>
        cases hv
        rfl
    | cons x xs ih =>
        rw [List.forall_mem_cons] at hxs
        cases hv with
        | cons h₁ h₂ =>
            rw [List.filter_append, h.filter_of_statement ht hbody hxs.1 h₁, ih hxs.2 h₂,
              ← List.filter_append]
            rfl
        | cut h₁ =>
            have hx := h.unbroken.needs (.item (form_of_block hbody) hxs.1)
            cases Unbroken.completes h₁ hx
  rcases hw with hw | hw
  · exact hall (fun _ hx => hx) ((runs_listing (form_of_block hbody) _ _).mp hw)
  · cases Unbroken.completes hw h.unbroken

theorem exists_finishes : ∃ w, t.Finishes body w := by
  have hlt : body < t.size := by
    refine Nat.lt_of_not_le fun hle => ?_
    rw [kind_of_le hle] at hbody
    cases hbody
  obtain ⟨w, hw⟩ := h.unbroken.exists_runs ht hlt
  exact ⟨w, .inl hw⟩

end Straight

end Tree

/-! ## What the analysis finds -/

namespace Source

variable {s : Source}

/-- The write that an assignment makes. -/
def assignmentAt (s : Source) (e : NodeId) : Assignment where
  origin := match s.storedParameter? e with
    | some decl => .parameter decl
    | none => .mixed
  anchor := some e

theorem assignmentOf_eq {i : Instr} {e : NodeId} (he : i.element = some e)
    (hk : s.tree.kind e = .assign) : s.assignmentOf i = s.assignmentAt e := by
  have hanchor : (i.element.filter fun e => s.tree.kind e == .assign) = some e := by
    simp [he, hk]
  unfold assignmentOf assignmentAt
  simp only [hanchor]
  rfl

theorem origin_assignmentAt {e p : NodeId} :
    (s.assignmentAt e).origin = .parameter p ↔ s.storedParameter? e = some p := by
  unfold assignmentAt
  cases s.storedParameter? e <;> simp

end Source

theorem Flow.stored_cases (f : Flow) (j : InstrId) : f.stored j = [] ∨ ∃ e, f.stored j = [e] := by
  unfold stored Op.stores
  split
  · split
    · exact .inr ⟨_, rfl⟩
    · exact .inl rfl
  · exact .inl rfl

/-- What is stored on a path read backwards. -/
theorem Flow.writes_reverse (f : Flow) (p : List InstrId) :
    f.writes p.reverse = (f.writes p).reverse := by
  unfold writes
  rw [List.reverse_flatMap]
  refine List.flatMap_congr fun j _ => ?_
  rcases f.stored_cases j with h | ⟨e, h⟩ <;> simp [h]

namespace Solver

variable {s : Source} {lambda body : NodeId} {props : TypeExpr} {fields : List Field}
  (h : s.PropsLambda lambda body props) (ht : s.tree.WellFormed)
  (hnodup : (fields.filterMap (·.name)).Nodup)

/-- The matcher on an instruction that stores into a member of the props. -/
theorem matcher_of_stored (fields : List Field) (h : s.PropsLambda lambda body props)
    (ht : s.tree.WellFormed) {j : InstrId} {e : NodeId} {name : String}
    (hj : e ∈ ((s.bodyCode body).flow lambda).stored j)
    (he : s.tree.storedMember? s.framework.attrsMember e = some name) :
    (ofLambda s lambda body props fields).matcher j =
      some (.byName fields name (s.assignmentAt e)) := by
  obtain ⟨place, target, receiver, hop, helem⟩ := Flow.write_of_stored hj
  have hstore := Tree.storedMember?_eq_some_iff.mp he
  rw [matcher_ofLambda, h.builderMatcher_eq ht fields hop helem hstore,
    Source.assignmentOf_eq helem (Tree.memberStore?_eq_some_iff.mp hstore).1]

/-- What is found out about fields and unknown writes is about the fields of the props and about
stores that the body involves. -/
theorem entry_of_traced (ht : s.tree.WellFormed) (hb : s.tree.lambdaBody? lambda = some body) :
    (∀ x ∈ (ofLambda s lambda body props fields).atSink.assigned, x.1 ∈ fields) ∧
      ∀ a ∈ (ofLambda s lambda body props fields).atSink.unknown,
        ∃ u n, s.tree.Involves .statement body u n ∧ s.tree.form u n = .store ∧
          a.anchor = some n := by
  have htraced := traced_ofLambda s lambda body props fields
  constructor
  · intro x hx
    obtain ⟨i, a, hi⟩ := (htraced.entry x hx).field
    rw [matcher_ofLambda] at hi
    obtain ⟨u, e, name, -, -, -, -, -, heq⟩ := Source.store_of_matcher ht hb hi
    unfold Write.byName at heq
    split at heq
    · next f hf =>
      rw [Write.field.injEq] at heq
      exact heq.1 ▸ List.mem_of_find?_eq_some hf
    · cases heq
  · intro a ha
    obtain ⟨i, hi⟩ := htraced.unknown a ha
    rw [matcher_ofLambda] at hi
    obtain ⟨u, e, name, hinvolves, hform, helem, -, -, heq⟩ := Source.store_of_matcher ht hb hi
    rw [Source.assignmentOf_eq helem (Tree.kind_of_store hform).1] at heq
    unfold Write.byName at heq
    split at heq
    · cases heq
    · rw [Write.unknown.injEq] at heq
      exact ⟨u, e, hinvolves, hform, by rw [heq]; rfl⟩

include h ht hnodup

/-- Which instructions write a field: the stores into the member of its name. -/
theorem writeOf?_eq_some_iff (hdecl : ∀ f ∈ fields, ∀ g ∈ fields, f.decl = g.decl → f = g)
    {f : Field} (hf : f ∈ fields) {name : String} (hname : f.name = some name) {j : InstrId}
    {a : Assignment} :
    (ofLambda s lambda body props fields).writeOf? f j = some a ↔
      ∃ e, ((s.bodyCode body).flow lambda).stored j = [e] ∧
        s.tree.storedMember? s.framework.attrsMember e = some name ∧ a = s.assignmentAt e := by
  constructor
  · intro hw
    obtain ⟨g, hmatch, hgf⟩ := writeOf?_eq_some hw
    rw [matcher_ofLambda] at hmatch
    obtain ⟨u, e, name', -, hform, helem, hstored, hstore, heq⟩ :=
      Source.store_of_matcher ht h.body_eq hmatch
    unfold Write.byName at heq
    split at heq
    · next g' hg' =>
      cases heq
      -- the field that the store names is the given one
      have hmem := List.mem_of_find?_eq_some hg'
      have hgname : g.name = some name' := by simpa using List.find?_some hg'
      obtain rfl := hdecl g hmem f hf hgf
      obtain rfl : name' = name := Option.some.inj (hgname.symm.trans hname)
      exact ⟨e, hstored, Tree.storedMember?_eq_some_iff.mpr hstore,
        Source.assignmentOf_eq helem (Tree.kind_of_store hform).1⟩
    · cases heq
  · rintro ⟨e, hstored, he, rfl⟩
    have hmatch := matcher_of_stored fields h ht (by rw [hstored]; simp) he
    rw [Write.byName, Field.named?_eq_some hnodup hf hname] at hmatch
    simp [writeOf?, hmatch]

/-- The first write to a field on a list of instructions is the first store that names it. -/
theorem findSome?_writeOf? (hdecl : ∀ f ∈ fields, ∀ g ∈ fields, f.decl = g.decl → f = g)
    {f : Field} (hf : f ∈ fields) {name : String} (hname : f.name = some name)
    (q : List InstrId) :
    q.findSome? ((ofLambda s lambda body props fields).writeOf? f) =
      ((((s.bodyCode body).flow lambda).writes q).find? fun e =>
        s.tree.storedMember? s.framework.attrsMember e == some name).map s.assignmentAt := by
  have hiff (j : InstrId) (a : Assignment) :=
    writeOf?_eq_some_iff (j := j) (a := a) h ht hnodup hdecl hf hname
  induction q with
  | nil => rfl
  | cons j q ih =>
      rw [List.findSome?_cons, Flow.writes, List.flatMap_cons, List.find?_append, ← Flow.writes]
      cases hw : (ofLambda s lambda body props fields).writeOf? f j with
      | some a =>
          obtain ⟨e, hstored, he, rfl⟩ := (hiff j a).mp hw
          simp [hstored, he]
      | none =>
          have hnone : ((((s.bodyCode body).flow lambda).stored j).find? fun e =>
              s.tree.storedMember? s.framework.attrsMember e == some name) = none := by
            refine List.find?_eq_none.mpr fun e he htest => ?_
            have hstored : ((s.bodyCode body).flow lambda).stored j = [e] := by
              rcases ((s.bodyCode body).flow lambda).stored_cases j with hnil | ⟨e', hone⟩
              · rw [hnil] at he
                cases he
              · rw [hone] at he
                rw [hone, List.mem_singleton.mp he]
            rw [(hiff j _).mpr ⟨e, hstored, by simpa using htest, rfl⟩] at hw
            cases hw
          rw [hnone, Option.none_or]
          exact ih

variable (hline : s.tree.Straight s.framework.attrsMember body)

include hline

/-- **The state of a straight body.** A field has the value that the last statement for
it stores. -/
theorem get?_straight (hdecl : ∀ f ∈ fields, ∀ g ∈ fields, f.decl = g.decl → f = g)
    {f : Field} (hf : f ∈ fields) {name : String} (hname : f.name = some name) :
    (ofLambda s lambda body props fields).atSink.get? f =
      ((s.tree.significant body).reverse.find? fun e =>
        s.tree.storedMember? s.framework.attrsMember e == some name).map s.assignmentAt := by
  have hbody := Source.kind_body h.body_eq
  have hpath := Source.exists_path_iff_finishes h.body_eq ht
  have hfind (xs : List NodeId) :
      (xs.find? fun e => s.tree.storedMember? s.framework.attrsMember e == some name) =
        ((xs.filter fun e => (s.tree.storedMember? s.framework.attrsMember e).isSome).find? fun e =>
          s.tree.storedMember? s.framework.attrsMember e == some name) := by
    rw [List.find?_filter]
    congr 1
    funext e
    cases s.tree.storedMember? s.framework.attrsMember e <;> simp [beq_eq_decide]
  have hexit : ((s.bodyCode body).flow lambda).Reaches entryId exitId := by
    obtain ⟨w, hw⟩ := hline.exists_finishes ht hbody
    obtain ⟨p, hp, -⟩ := (hpath w).mpr hw
    exact ⟨p, hp⟩
  refine get?_atSink (flow_ofLambda s lambda body props fields)
    (Source.not_exit_bodyCode h.body_eq true) (Source.not_loop_bodyCode h.body_eq hline.loopFree)
    hexit ht ?_ ?_ ?_
  · refine Option.eq_none_iff_forall_ne_some.mpr fun a ha => ?_
    obtain ⟨e, hstored, -⟩ := (writeOf?_eq_some_iff h ht hnodup hdecl hf hname).mp ha
    rw [Code.stored_sink] at hstored
    cases hstored
  · intro a ha
    obtain ⟨e, -, rfl⟩ := Option.map_eq_some_iff.mp ha
    simp [Source.assignmentAt]
  · intro p hp
    have hw := hline.filter_of_finishes ht hbody ((hpath _).mp ⟨p, hp, rfl⟩)
    rw [findSome?_writeOf? h ht hnodup hdecl hf hname, Flow.writes_reverse, hfind,
      List.filter_reverse, hw, ← List.filter_reverse, ← hfind]

omit hnodup in
/-- **The writes of a straight body that name no field** are all found. -/
theorem unknown_straight {n : NodeId} :
    (∃ a ∈ (ofLambda s lambda body props fields).atSink.unknown, a.anchor = some n) ↔
      n ∈ s.tree.significant body ∧ ∃ name,
        s.tree.storedMember? s.framework.attrsMember n = some name ∧
          Field.named? fields name = none := by
  have hbody := Source.kind_body h.body_eq
  constructor
  · rintro ⟨a, ha, hanchor⟩
    obtain ⟨i, hi⟩ := (traced_ofLambda s lambda body props fields).unknown a ha
    rw [matcher_ofLambda] at hi
    obtain ⟨u, e, name, hinvolves, hform, helem, -, hstore, heq⟩ :=
      Source.store_of_matcher ht h.body_eq hi
    rw [Source.assignmentOf_eq helem (Tree.kind_of_store hform).1] at heq
    cases hnamed : Field.named? fields name with
    | some f => simp [Write.byName, hnamed] at heq
    | none =>
        rw [Write.byName, hnamed, Write.unknown.injEq] at heq
        rw [heq] at hanchor
        obtain rfl : e = n := Option.some.inj hanchor
        exact ⟨hline.stores hinvolves hstore, name, Tree.storedMember?_eq_some_iff.mpr hstore,
          hnamed⟩
  · rintro ⟨hn, name, hname, hnone⟩
    -- the run of the body makes the write, so it is on the way back from the sink
    obtain ⟨w, hw⟩ := hline.exists_finishes ht hbody
    obtain ⟨p, hp, rfl⟩ := (Source.exists_path_iff_finishes h.body_eq ht w).mpr hw
    have hmem : n ∈ ((s.bodyCode body).flow lambda).writes p := by
      have hfilter := hline.filter_of_finishes ht hbody hw
      have : n ∈ (s.tree.significant body).filter fun e =>
          (s.tree.storedMember? s.framework.attrsMember e).isSome := by
        simp [hn, hname]
      rw [← hfilter] at this
      exact (List.mem_filter.mp this).1
    obtain ⟨j, hj, hnj⟩ := List.mem_flatMap.mp hmem
    have hmatch := matcher_of_stored fields h ht hnj hname
    rw [Write.byName, hnone] at hmatch
    have hfeeds : Relation.ReflTransGen ((s.bodyCode body).flow lambda).Feeds
        ((s.bodyCode body).flow lambda).sink j := by
      obtain ⟨q, hq⟩ := hp.reaches_of_mem hj
      obtain ⟨r, hr, -⟩ := hp.upTo hj
      rw [Code.sink_flow]
      exact (Code.feeds_of_path (Source.not_exit_bodyCode h.body_eq true) hq
        ⟨r, hr⟩).to_reflTransGen
    have hlinked := (s.bodyCode body).linked_flow lambda
    rw [← flow_ofLambda s lambda body props fields] at hfeeds hlinked
    have hbehind : UnknownBehind _ _ (s.assignmentAt n) := ⟨j, hfeeds, hmatch⟩
    exact ⟨s.assignmentAt n, hbehind.mem_solve (fit_empty hlinked), rfl⟩

end Solver

/-! ## Constructions -/

namespace Construction

/-- Whether the lambda of a construction is straight, in a component whose fields have different
names. -/
structure Straight (c : Construction) (s : Source) (lambda body : NodeId) (props : TypeExpr)
    (fields : List Field) : Prop where
  fields_eq : c.fields? s = some fields
  nodup : (fields.filterMap (·.name)).Nodup
  propsLambda : s.PropsLambda lambda body props
  state_eq : c.state? s = some (Solver.ofLambda s lambda body props fields).atSink
  straight : s.tree.Straight s.framework.attrsMember body

theorem exists_straight {s : Source} {c : Construction} {call lambda body : NodeId}
    {fields : List Field} (ht : s.tree.WellFormed) (hknown : s.bodiesKnown = true)
    (hc : ofCall? s call = some c) (hfields : c.fields? s = some fields)
    (hnodup : (fields.filterMap (·.name)).Nodup) (hlambda : c.lambda? s.tree = some lambda)
    (hbody : s.tree.lambdaBody? lambda = some body)
    (hattrs : s.lexical? body s.framework.attrsMember = none)
    (hline : s.tree.Straight s.framework.attrsMember body) :
    ∃ props, c.Straight s lambda body props fields := by
  obtain ⟨props, hprops⟩ := exists_props hfields
  rw [Source.lexical?_body hbody ht] at hattrs
  exact ⟨props, hfields, hnodup, ⟨hbody, lambdaReceiver?_eq ht hc hlambda hprops, hattrs⟩,
    state?_eq hknown hfields hlambda hbody hprops, hline⟩

namespace Straight

variable {s : Source} {c : Construction} {lambda body : NodeId} {props : TypeExpr}
  {fields : List Field} {state : State} (h : c.Straight s lambda body props fields)
  (ht : s.tree.WellFormed) (hstate : c.state? s = some state)

include h hstate

theorem eq_atSink : state = (Solver.ofLambda s lambda body props fields).atSink :=
  Option.some.inj (hstate.symm.trans h.state_eq)

include ht

/-- A field has the value that the last statement for it stores. -/
theorem get?_eq {f : Field} (hf : f ∈ fields) {name : String} (hname : f.name = some name) :
    state.get? f = ((s.tree.significant body).reverse.find? fun e =>
      s.tree.storedMember? s.framework.attrsMember e == some name).map s.assignmentAt := by
  rw [h.eq_atSink hstate]
  exact Solver.get?_straight h.propsLambda ht h.nodup h.straight
    (fun f hf g hg => eq_of_decl h.fields_eq hf hg) hf hname

theorem exists_of_get?_eq_some {f : Field} (hf : f ∈ fields) {name : String}
    (hname : f.name = some name) {a : Assignment} (ha : state.get? f = some a) :
    ∃ e ∈ s.tree.significant body, s.tree.storedMember? s.framework.attrsMember e = some name ∧
      a = s.assignmentAt e := by
  rw [h.get?_eq ht hstate hf hname] at ha
  obtain ⟨e, he, rfl⟩ := Option.map_eq_some_iff.mp ha
  exact ⟨e, List.mem_reverse.mp (List.mem_of_find?_eq_some he), by simpa using List.find?_some he,
    rfl⟩

theorem get?_eq_none_iff {f : Field} (hf : f ∈ fields) {name : String}
    (hname : f.name = some name) : state.get? f = none ↔
      ∀ e ∈ s.tree.significant body,
        s.tree.storedMember? s.framework.attrsMember e ≠ some name := by
  rw [h.get?_eq ht hstate hf hname, Option.map_eq_none_iff, List.find?_eq_none]
  simp

theorem unknown_iff {n : NodeId} : (∃ a ∈ state.unknown, a.anchor = some n) ↔
    n ∈ s.tree.significant body ∧ ∃ name,
      s.tree.storedMember? s.framework.attrsMember n = some name ∧
        Field.named? fields name = none := by
  rw [h.eq_atSink hstate]
  exact Solver.unknown_straight h.propsLambda ht h.straight

/-- Nothing is unknown when all statements that write props write fields. -/
theorem unknown_eq_nil (hall : ∀ n ∈ s.tree.significant body, ∀ name,
      s.tree.storedMember? s.framework.attrsMember n = some name →
        Field.named? fields name ≠ none) : state.unknown = [] := by
  refine List.eq_nil_iff_forall_not_mem.mpr fun a ha => ?_
  obtain ⟨-, n, -, -, hn⟩ :=
    (Solver.entry_of_traced ht h.propsLambda.body_eq).2 a (h.eq_atSink hstate ▸ ha)
  obtain ⟨hmem, name, hname, hnone⟩ := (h.unknown_iff ht hstate).mp ⟨a, ha, hn⟩
  exact hall n hmem name hname hnone

theorem get?_of_mem_assigned {x : Field × Assignment} (hx : x ∈ state.assigned) :
    x.1 ∈ fields ∧ state.get? x.1 = some x.2 := by
  rw [h.eq_atSink hstate] at hx ⊢
  exact ⟨(Solver.entry_of_traced ht h.propsLambda.body_eq).1 x hx,
    (Solver.traced_ofLambda s lambda body props fields).get?_eq hx⟩

end Straight

end Construction

end ComponentAudit
