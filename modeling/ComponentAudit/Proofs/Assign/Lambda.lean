import ComponentAudit.Construction
import ComponentAudit.Proofs.Assign.Sound
import ComponentAudit.Proofs.Flow.Involved

set_option autoImplicit false

/-! # Writes in a construction lambda

Which instructions of a lambda fit the pattern of a field write. The graph notes where the receiver
of a store `receiver.member = value` is read (`Source.exists_read_receiver`). When the name of the
props is free, the receiver is the one of the lambda, and the pattern fits.

Main statement: `Source.PropsLambda.builderMatcher_eq`.
-/

namespace ComponentAudit

namespace Tree

/-- The names of receiver and member in an assignment `receiver.member = value`. -/
def memberStore? (t : Tree) (e : NodeId) : Option (String × String) := do
  guard (t.kind e = .assign)
  let (place, _) ← t.operands? e
  guard (t.kind place = .select)
  let (receiver, selector) ← t.operands? place
  return (← t.referenceName? receiver, ← t.referenceName? selector)

theorem memberStore?_eq_some_iff {t : Tree} {e : NodeId} {a b : String} :
    t.memberStore? e = some (a, b) ↔ t.kind e = .assign ∧ ∃ place stored receiver selector,
      t.operands? e = some (place, stored) ∧ t.kind place = .select ∧
      t.operands? place = some (receiver, selector) ∧ t.referenceName? receiver = some a ∧
      t.referenceName? selector = some b := by
  constructor
  · intro h
    simp only [memberStore?, guard, Option.bind_eq_bind, Option.bind_eq_some_iff, Prod.exists,
      Option.pure_def, Option.some.injEq, Prod.mk.injEq] at h
    obtain ⟨_, hk, place, stored, ho, _, hp, receiver, selector, hs, _, ha, _, hb, rfl, rfl⟩ := h
    exact ⟨(Option.ite_none_right_eq_some.mp hk).1, place, stored, receiver, selector, ho,
      (Option.ite_none_right_eq_some.mp hp).1, hs, ha, hb⟩
  · rintro ⟨hk, place, stored, receiver, selector, ho, hp, hs, ha, hb⟩
    simp [memberStore?, hk, ho, hp, hs, ha, hb]

theorem kind_of_referenceName? {t : Tree} {id : NodeId} {name : String}
    (h : t.referenceName? id = some name) : t.kind id = .reference name := by
  unfold referenceName? Kind.referenceName? at h
  split at h
  · next hk => rw [hk, Option.some.inj h]
  · cases h

theorem WellFormed.ne_of_operands? {t : Tree} (ht : t.WellFormed) {id a b : NodeId}
    (h : t.operands? id = some (a, b)) : a ≠ b := by
  have hnodup := ht.nodup_children id
  unfold operands? at h
  split at h
  · split at h
    · next hc =>
      cases h
      rw [hc] at hnodup
      simpa using hnodup
    · cases h
  · cases h

end Tree

namespace Source

/-- The receiver in `receiver.name` is not behind a point itself. -/
theorem not_selector {s : Source} (ht : s.tree.WellFormed) {place receiver selector : NodeId}
    (hs : s.tree.operands? place = some (receiver, selector)) {x r : NodeId}
    (hx : s.tree.operands? x = some (r, receiver)) : False := by
  have hp := ht.mem_children_iff.mp (Tree.mem_children_of_operands? hs).1
  have hp' := ht.mem_children_iff.mp (Tree.mem_children_of_operands? hx).2
  obtain rfl : place = x := Option.some.inj (hp.symm.trans hp')
  obtain ⟨rfl, rfl⟩ : receiver = r ∧ selector = receiver :=
    Prod.mk.inj (Option.some.inj (hs.symm.trans hx))
  exact ht.ne_of_operands? hs rfl

/-! ## The body of a lambda -/

section

variable {s : Source} {lambda body : NodeId} (hb : s.tree.lambdaBody? lambda = some body)

include hb

theorem kind_lambda : s.tree.kind lambda = .lambda := by
  unfold Tree.lambdaBody? at hb
  exact (Option.ite_none_right_eq_some.mp hb).1

theorem kind_body : s.tree.kind body = .block := by
  unfold Tree.lambdaBody? at hb
  simpa using List.find?_some (Option.ite_none_right_eq_some.mp hb).2

theorem body_mem_children : body ∈ s.tree.children lambda := by
  unfold Tree.lambdaBody? at hb
  exact List.mem_of_find?_eq_some (Option.ite_none_right_eq_some.mp hb).2

theorem bodyOf?_lambda : s.bodyOf? lambda = some body := by
  simp [bodyOf?, kind_lambda hb, hb]

theorem bodyCode_eq : s.bodyCode body = s.codeWithin s.tree.size .statement body := by
  simp [bodyCode, kind_body hb]

variable (ht : s.tree.WellFormed)

include ht

theorem lexical?_body (name : String) : s.lexical? body name = s.lexical? lambda name := by
  have hp := ht.mem_children_iff.mp (body_mem_children hb)
  rw [lexical?, ht.ancestors_of_parent hp, Tree.lineage, lexicalFrom?, kind_lambda hb]
  rfl

/-- **Where the receiver of a store is read**: the graph finds an instruction that reads its
name. -/
theorem exists_read_receiver {j : InstrId} {e place : NodeId} {base name : String}
    {target : Target} {receiver : Option Receiver}
    (hop : (((s.bodyCode body).flow lambda).instr j).op = .write place target receiver)
    (he : (((s.bodyCode body).flow lambda).instr j).element = some e)
    (hstore : s.tree.memberStore? e = some (base, name)) :
    ∃ r selector i, s.tree.kind place = .select ∧ s.tree.operands? place = some (r, selector) ∧
      s.tree.kind r = .reference base ∧ s.tree.referenceName? selector = some name ∧
      s.tree.SameScope body r ∧ ((s.bodyCode body).flow lambda).valueAt? r = some i ∧
      (((s.bodyCode body).flow lambda).instr i).op = .read (s.access r).1 (s.access r).2 := by
  have hreached : s.Reached s.tree.size body :=
    ⟨lt_size_of_bodyOf? ht (bodyOf?_lambda hb), by have := s.tree.depth_pos body; omega⟩
  have hcode := bodyCode_eq hb
  obtain ⟨-, place', stored', r, selector, ho', hp, hs, hr, hsel⟩ :=
    Tree.memberStore?_eq_some_iff.mp hstore
  -- the instruction stems from the assignment, so both have the same place
  obtain ⟨e', he', hpart⟩ := Code.step_of_write hop
  obtain rfl : e' = e := Option.some.inj (he'.symm.trans he)
  obtain ⟨v, hinvolves, hform, stored, ho⟩ := involves_of_write (hcode ▸ hpart)
  obtain ⟨rfl, rfl⟩ : place = place' ∧ stored = stored' :=
    Prod.mk.inj (Option.some.inj (ho.symm.trans ho'))
  have hkind : s.tree.kind r = .reference base := Tree.kind_of_referenceName? hr
  have hmem : r ∈ s.tree.operandsOf v e' := by
    have hk := (Tree.kind_of_store hform).1
    cases v <;> simp [Tree.operandsOf, hk, ho, Tree.placeOperands, hp, hs]
  have hinvolves : s.tree.Involves .statement body .expression r :=
    .next hinvolves (.operand hmem)
  -- its name is read for its value, and the name is not the selector of something else
  have hread := exists_read_of_involves ht hinvolves hreached hkind
  rw [← hcode] at hread
  obtain ⟨i, hi, hiop⟩ := Code.valueAt?_flow lambda hread fun a ha => by
    refine (read_of_value (hcode ▸ ha) hkind).resolve_right ?_
    rintro ⟨x, receiver, -, hx⟩
    exact not_selector ht hs hx
  exact ⟨r, selector, i, hp, hs, hkind, hsel, ht.sameScope_of_involves hinvolves, hi, hiop⟩

end

/-- What the pattern of a construction lambda fits: a store into a member of the props that the
lambda's receiver holds. -/
theorem builderMatcher_cases {s : Source} {f : Flow} {lambda : NodeId} {props : TypeExpr}
    {fields : List Field} {j : InstrId} {w : Write}
    (h : s.builderMatcher f lambda props fields j = some w) :
    ∃ place target receiver r selector i name, (f.instr j).op = .write place target receiver ∧
      s.tree.kind place = .select ∧ s.tree.operands? place = some (r, selector) ∧
      f.valueAt? r = some i ∧ s.readsAttrs lambda (f.instr i) = true ∧
      s.tree.referenceName? selector = some name ∧
      w = .byName fields name (s.assignmentOf (f.instr j)) := by
  obtain ⟨place, target, receiver, hop⟩ := write_of_builderMatcher h
  simp only [builderMatcher, hop, guard, Option.bind_eq_bind, Option.bind_eq_some_iff, Prod.exists,
    Option.pure_def, Option.some.injEq] at h
  obtain ⟨_, hselect, r, selector, hs, i, hi, _, hread, _, -, name, hname, rfl⟩ := h
  exact ⟨place, target, receiver, r, selector, i, name, hop,
    (Option.ite_none_right_eq_some.mp hselect).1, hs, hi,
    (Option.ite_none_right_eq_some.mp hread).1, hname, rfl⟩

/-! ## Lambdas with props -/

/-- A lambda whose receiver holds props of the given type under a name that nothing else has. -/
structure PropsLambda (s : Source) (lambda body : NodeId) (props : TypeExpr) : Prop where
  body_eq : s.tree.lambdaBody? lambda = some body
  receiver_eq : s.lambdaReceiver? lambda = some (.generic s.framework.elementBuilder [props])
  attrs_free : s.lexical? lambda s.framework.attrsMember = none

namespace PropsLambda

variable {s : Source} {lambda body : NodeId} {props : TypeExpr}
  (h : s.PropsLambda lambda body props) (ht : s.tree.WellFormed)

include h ht

/-- The receiver of the lambda is the innermost one in its body. -/
theorem receivers_body : s.receivers body =
    { boundTo := lambda, type := .generic s.framework.elementBuilder [props] } ::
      s.receivers lambda := by
  have hp := ht.mem_children_iff.mp (body_mem_children h.body_eq)
  rw [receivers, ht.ancestors_of_parent hp, Tree.lineage, List.filterMap_cons]
  simp [receiverAt?, kind_lambda h.body_eq, h.receiver_eq, receivers]

/-- Where the body is run, the name of the props is bound to the lambda's receiver. -/
theorem binding_attrs {x : NodeId} (hx : s.tree.SameScope body x) :
    s.binding x s.framework.attrsMember =
      .implicit { boundTo := lambda, type := .generic s.framework.elementBuilder [props] }
        (.member s.framework.elementBuilder s.framework.attrsMember) := by
  have hlexical : s.lexical? x s.framework.attrsMember = none := by
    rw [lexical?_of_sameScope ht hx, lexical?_body h.body_eq ht, h.attrs_free]
  have hmeaning : s.memberMeaning (.generic s.framework.elementBuilder [props])
      s.framework.attrsMember = .member s.framework.elementBuilder s.framework.attrsMember := by
    simp [memberMeaning, TypeExpr.isClass, TypeExpr.simpleName, TypeExpr.generic]
  unfold binding
  simp only [hlexical, receivers_of_sameScope ht hx, h.receivers_body ht]
  simp [hmeaning]

theorem typeOf?_attrs {place r selector : NodeId} (hx : s.tree.SameScope body r)
    (hs : s.tree.operands? place = some (r, selector))
    (hr : s.tree.kind r = .reference s.framework.attrsMember) : s.typeOf? r = some props := by
  have hparent := ht.mem_children_iff.mp (Tree.mem_children_of_operands? hs).1
  have hq : s.qualifier? r = none := by
    simp [qualifier?, hparent, hs, (ht.ne_of_operands? hs).symm]
  obtain ⟨n, hn⟩ := Nat.exists_eq_add_one_of_ne_zero
    (Nat.ne_zero_of_lt (Tree.lt_size_of_parent hparent))
  rw [typeOf?, hn, typeWithin?]
  simp only [hr, hq, h.binding_attrs ht hx]
  rfl

/-- **What stores into a member of the props fits the pattern of a field write.** -/
theorem builderMatcher_eq (fields : List Field) {j : InstrId} {e : NodeId} {name : String}
    {target : Target} {place : NodeId} {receiver : Option Receiver}
    (hop : (((s.bodyCode body).flow lambda).instr j).op = .write place target receiver)
    (he : (((s.bodyCode body).flow lambda).instr j).element = some e)
    (hstore : s.tree.memberStore? e = some (s.framework.attrsMember, name)) :
    s.builderMatcher ((s.bodyCode body).flow lambda) lambda props fields j =
      some (.byName fields name (s.assignmentOf (((s.bodyCode body).flow lambda).instr j))) := by
  obtain ⟨r, selector, i, hp, hs, hr, hsel, hscope, hi, hiop⟩ :=
    exists_read_receiver h.body_eq ht hop he hstore
  have hname : s.tree.referenceName? r = some s.framework.attrsMember := by
    rw [Tree.referenceName?, hr]
    rfl
  have hattrs : s.readsAttrs lambda (((s.bodyCode body).flow lambda).instr i) = true := by
    rw [readsAttrs, hiop, access, hname]
    simp [h.binding_attrs ht hscope, Binding.access, receiverOf?]
  have htype : s.typeOf? r = some props := h.typeOf?_attrs ht hscope hs hr
  rw [builderMatcher, hop]
  simp [hp, hs, hi, hattrs, htype, hsel]

end PropsLambda

/-- A member that a bare name accesses has that name. -/
theorem eq_of_access {s : Source} {place : NodeId} {name owner member : String}
    {receiver : Option Receiver}
    (h : (s.binding place name).access = (.member owner member, receiver)) : member = name := by
  unfold binding at h
  split at h
  · cases h
  · dsimp only at h
    split at h
    · next r _ =>
      have hmeaning : s.memberMeaning r.type name = .member owner member := congrArg Prod.fst h
      unfold memberMeaning at hmeaning
      split at hmeaning
      · cases hmeaning
        rfl
      · split at hmeaning <;> cases hmeaning
    · split at h <;> cases h

/-- What is read as the member that holds the props is a name, and the name is that of the
member. -/
theorem referenceName?_of_readsAttrs {s : Source} {n : Nat} {u : Usage}
    {id owner lambda r : NodeId} {i : InstrId}
    (hsel : ∀ x receiver, s.tree.operands? x ≠ some (receiver, r))
    (hi : ((s.codeWithin n u id).flow owner).valueAt? r = some i)
    (hread : s.readsAttrs lambda (((s.codeWithin n u id).flow owner).instr i) = true) :
    s.tree.referenceName? r = some s.framework.attrsMember := by
  obtain ⟨a, ha, hop⟩ := Code.exists_of_valueAt? hi
  unfold readsAttrs at hread
  split at hread
  case h_2 => cases hread
  rename_i member name receiver hmember
  simp only [Bool.and_eq_true, beq_iff_eq] at hread
  obtain ⟨⟨-, rfl⟩, hreceiver⟩ := hread
  by_cases hk : ∃ name, s.tree.kind r = .reference name
  · obtain ⟨name, hk⟩ := hk
    have hname : s.tree.referenceName? r = some name := by
      rw [Tree.referenceName?, hk]
      rfl
    obtain rfl := (read_of_value ha hk).resolve_right fun ⟨x, receiver, _, hx⟩ => hsel x receiver hx
    have haccess : s.access r = (.member member s.framework.attrsMember, receiver) := by
      have hread := (hop _ rfl).symm.trans hmember
      simp only [Op.read.injEq] at hread
      exact Prod.ext hread.1 hread.2
    rw [access, hname] at haccess
    rw [hname, eq_of_access haccess]
  · -- the last instruction of anything else reads nothing through the lambda's receiver
    obtain ⟨op, e, hend, hplain⟩ := (endsPlainly_of_value ha (not_exists.mp hk)).resolve_right
      fun ⟨x, receiver, _, hx⟩ => hsel x receiver hx
    cases receiver with
    | none => cases hreceiver
    | some receiver => exact absurd ((hop _ hend).symm.trans hmember) (hplain _ _)

/-- **What fits the pattern of a field write** is a store `attrs.name = value` that the body
involves. -/
theorem store_of_matcher {s : Source} (ht : s.tree.WellFormed) {lambda body : NodeId}
    (hb : s.tree.lambdaBody? lambda = some body) {props : TypeExpr} {fields : List Field}
    {j : InstrId} {w : Write}
    (hw : s.builderMatcher ((s.bodyCode body).flow lambda) lambda props fields j = some w) :
    ∃ u e name, s.tree.Involves .statement body u e ∧ s.tree.form u e = .store ∧
      (((s.bodyCode body).flow lambda).instr j).element = some e ∧
      ((s.bodyCode body).flow lambda).stored j = [e] ∧
      s.tree.memberStore? e = some (s.framework.attrsMember, name) ∧
      w = .byName fields name (s.assignmentOf (((s.bodyCode body).flow lambda).instr j)) := by
  obtain ⟨place, target, receiver, r, selector, i, name, hop, hselect, hs, hi, hread, hname, rfl⟩ :=
    builderMatcher_cases hw
  obtain ⟨e, he, hpart⟩ := Code.step_of_write hop
  obtain ⟨u, hinvolves, hform, stored, ho⟩ := involves_of_write (bodyCode_eq hb ▸ hpart)
  rw [bodyCode_eq hb] at hi hread
  have hr := referenceName?_of_readsAttrs (fun x _ hx => not_selector ht hs hx) hi hread
  refine ⟨u, e, name, hinvolves, hform, he, ?_, ?_, rfl⟩
  · simp [Flow.stored, he, hop, Op.stores]
  · exact Tree.memberStore?_eq_some_iff.mpr
      ⟨(Tree.kind_of_store hform).1, place, stored, r, selector, ho, hselect, hs, hr, hname⟩

end Source

namespace Construction

variable {s : Source} {call lambda : NodeId} {c : Construction} {props : TypeExpr}

/-- Inside the lambda of a construction the receiver is the element builder for the props. -/
theorem lambdaReceiver?_eq (ht : s.tree.WellFormed) (hc : ofCall? s call = some c)
    (hl : c.lambda? s.tree = some lambda)
    (hp : c.component.argument? s.tree .props = some props) :
    s.lambdaReceiver? lambda = some (.generic s.framework.elementBuilder [props]) := by
  simp only [ofCall?, guard, Option.bind_eq_bind, Option.bind_eq_some_iff, Option.pure_def,
    Option.some.injEq] at hc
  obtain ⟨_, hcallee, arg, harg, decl, hdecl, component, hcomponent, rfl⟩ := hc
  have hcallee := (Option.ite_none_right_eq_some.mp hcallee).1
  have hparent := ht.mem_children_iff.mp (Tree.mem_children_of_trailingLambda? hl)
  have hprops : s.constructedProps? call = some props := by
    simp [Source.constructedProps?, harg, hdecl, hcomponent, hp]
  have hl : s.tree.trailingLambda? call = some lambda := hl
  simp [Source.lambdaReceiver?, hparent, hl, hcallee, hprops]

end Construction

end ComponentAudit
