import ComponentAudit.Proofs.Edit.Growth

set_option autoImplicit false

/-! # What a refused fix leaves

A fix looks at its target before it changes anything. Fixes that change several declarations of the
file one after the other could still be refused in between; they are not, because what they do to
one declaration leaves the others in place. The exception is generating a builder function anew,
which takes the old one out before it looks whether the new one has a place.

Main statement: `Fix.refused_changes_iff`.
-/

namespace ComponentAudit

/-! ## Changes of declarations -/

namespace Tree

variable {t u : Tree} {tops : List NodeId}

/-- What the file declares is not inside anything that it declares. -/
theorem not_loose_declared (ht : t.WellFormed)
    (htops : ∀ top ∈ tops, t.parent top = some t.root) {n : NodeId}
    (hn : t.parent n = some t.root) : ¬ t.Loose tops n := by
  rintro (hsize | ⟨top, htop, hinside⟩)
  · exact absurd (lt_size_of_parent hn) (Nat.not_lt_of_le hsize)
  · obtain ⟨p, hp, hunder⟩ := hinside.exists_parent
    obtain rfl : p = t.root := Option.some.inj (hp.symm.trans hn)
    exact ht.not_inside_of_under hunder (.single (htops top htop))

/-- What the file declares stays attached while declarations are edited. -/
theorem Edited.attached_declared (h : t.Edited tops u) (ht : t.WellFormed)
    (htops : ∀ top ∈ tops, t.parent top = some t.root) {n : NodeId}
    (hn : t.parent n = some t.root) : u.attached n = true := by
  rw [h.wellFormed.attached_iff, h.root_eq, h.under_iff ht (not_loose_declared ht htops hn)]
  exact .single hn

theorem Edited.foldl_detach (h : t.Edited tops u) (ht : t.WellFormed) {ns : List NodeId}
    (hns : ∀ n ∈ ns, t.Loose tops n) : t.Edited tops (ns.foldl Tree.detach u) := by
  induction ns generalizing u with
  | nil => exact h
  | cons n ns ih =>
      exact ih (h.detach ht (hns n List.mem_cons_self)) fun m hm =>
        hns m (List.mem_cons_of_mem _ hm)

theorem Edited.retypeSupertype (h : t.Edited tops u) {n : NodeId} (hn : t.Loose tops n)
    (f : TypeExpr → TypeExpr) : t.Edited tops (u.retypeSupertype n f) := by
  unfold Tree.retypeSupertype
  split
  · exact h.setKind hn _
  · exact h

/-- Taking all arguments from a supertype. -/
theorem Edited.callWith_nil (h : t.Edited tops u) (ht : t.WellFormed) {n : NodeId}
    (hn : t.Loose tops n) : t.Edited tops (u.callWith n []) := by
  have hcall : t.Edited tops (u.makeCall n) := by
    unfold makeCall
    split
    · exact h.setKind hn _
    · exact h
  refine hcall.foldl_detach ht fun c hc => ?_
  exact hcall.loose_of_parent ht (hcall.wellFormed.mem_children_iff.mp hc) (.inl hn)

end Tree

/-! ## Dropping a field -/

/-- Whether a refusal says that a function builds nothing. -/
def EditError.Unbuilt (e : EditError) : Prop :=
  ∃ n, e = .missingConstructionCall n ∨ e = .missingLambdaBody n

namespace Change

variable {α : Type} {t : Tree}

/-- Catching a refusal goes on with the tree as the refused change left it. -/
theorem run_tryCatch (c : Change α) (f : EditError → Change α) :
    Change.run (tryCatch c f) t =
      match Change.run c t with
      | (.ok a, u) => (.ok a, u)
      | (.error e, u) => Change.run (f e) u := by
  rcases hrun : Change.run c t with ⟨r, u⟩
  show StateT.run (ExceptT.run (ExceptT.tryCatch c f)) t = _
  unfold ExceptT.tryCatch
  rw [ExceptT.run_mk, StateT.run_bind, show StateT.run c t = (r, u) from hrun]
  cases r <;> rfl

/-- Whether a change stays below some tops, and is refused only where a function builds nothing. -/
def Lenient (c : Change α) (tops : List NodeId) (t : Tree) : Prop :=
  ∃ r u, Change.run c t = (r, u) ∧ t.Edited tops u ∧ ∀ e, r = .error e → e.Unbuilt

theorem Lenient.bind {β : Type} {c : Change α} {f : α → Change β} {tops : List NodeId}
    (h : c.Lenient tops t) (ht : t.WellFormed)
    (hf : ∀ a u, Change.run c t = (.ok a, u) → t.Edited tops u → (f a).Lenient tops u) :
    Lenient (c >>= f) tops t := by
  obtain ⟨r, u, hrun, hedited, hunbuilt⟩ := h
  cases r with
  | error e =>
      refine ⟨.error e, u, run_bind_error hrun f, hedited, fun e' he => ?_⟩
      exact Except.error.inj he ▸ hunbuilt e rfl
  | ok a =>
      obtain ⟨r, v, hrun', hedited', hunbuilt'⟩ := hf a u hrun hedited
      exact ⟨r, v, (run_bind_ok hrun f).trans hrun', hedited.trans ht hedited', hunbuilt'⟩

/-- Such a refusal is passed over. -/
theorem Lenient.run_skippingUnbuilt {c : Change Nat} {tops : List NodeId}
    (h : c.Lenient tops t) :
    ∃ u, Change.run (skippingUnbuilt c) t = (.ok (), u) ∧ t.Edited tops u := by
  obtain ⟨r, u, hrun, hedited, hunbuilt⟩ := h
  refine ⟨u, ?_, hedited⟩
  unfold skippingUnbuilt
  cases r with
  | ok n =>
      have hseq : Change.run (c *> pure ()) t = (.ok (), u) := run_bind_ok hrun _
      rw [run_tryCatch, hseq]
  | error e =>
      have hseq : Change.run (c *> pure ()) t = (.error e, u) := run_bind_error hrun _
      rw [run_tryCatch, hseq]
      obtain ⟨n, rfl | rfl⟩ := hunbuilt e rfl <;> rfl

end Change

theorem Tree.WellFormed.inside_of_parameter {t : Tree} (ht : t.WellFormed) {p function : NodeId}
    (hp : p ∈ t.parameters function) : t.Inside p function := by
  unfold Tree.parameters at hp
  split at hp
  · next list hlist =>
    obtain ⟨-, hfind⟩ := Option.ite_none_right_eq_some.mp hlist
    exact .trans (ht.inside_of_child (List.mem_filter.mp hp).1)
      (ht.inside_of_child (List.mem_of_find?_eq_some hfind))
  · cases hp

/-- A plan that takes out nodes inside an attached one can be carried out. -/
theorem Plan.run_apply_drops {plan : Plan} {t : Tree} (ht : t.WellFormed) {tops : List NodeId}
    {top : NodeId} (htop : top ∈ tops) (hattached : t.attached top = true)
    (hplan : ∀ e ∈ plan, ∃ n, t.Inside n top ∧ (e = .dropStatement n ∨ e = .dropParameter n)) :
    ∃ u, Change.run plan.apply t = (.ok plan.length, u) ∧ t.Edited tops u := by
  refine ⟨_, Plan.run_apply fun e he => ?_, Edit.edited_performAll ht (.refl ht) ?_ []⟩
  · obtain ⟨n, hn, hdrop⟩ := hplan e he
    have hunder : t.attached n = true := by
      rw [ht.attached_iff] at hattached ⊢
      exact hn.under.trans hattached
    rcases hdrop with rfl | rfl
    all_goals exact SyncTask.check_eq_ok (by simpa [Edit.subjects] using hunder) (by simp)
  · intro e he
    obtain ⟨n, hn, rfl | rfl⟩ := hplan e he
    all_goals exact ⟨top, htop, hn⟩

namespace Builder

variable {b : Builder} {fw : Framework} {t : Tree} {tops : List NodeId}

theorem needBody_eq (b : Builder) (t : Tree) : b.needBody t =
    match b.needConstruction t with
    | .error e => .error e
    | .ok c =>
      match c.body? t with
      | some body => .ok body
      | none => .error (.missingLambdaBody c.call) := by
  unfold needBody
  cases b.needConstruction t <;> rfl

/-- The block of a builder function is that of the lambda behind the call it consists of. -/
theorem spec_of_needBody {body : NodeId} (h : b.needBody t = .ok body) :
    ∃ call lambda, t.functionBody? b.function = some call ∧ t.kind call = .call ∧
      t.trailingLambda? call = some lambda ∧ t.lambdaBody? lambda = some body := by
  rw [needBody_eq] at h
  split at h
  · cases h
  · next c hconstruction =>
    obtain ⟨hcall, hkind, -⟩ := call_of_needConstruction hconstruction
    split at h
    · next found hbody =>
      obtain rfl := Except.ok.inj h
      obtain ⟨lambda, hlambda, hblock⟩ := Option.bind_eq_some_iff.mp hbody
      exact ⟨c.call, lambda, hcall, hkind, hlambda, hblock⟩
    · cases h

/-- The block of a builder function is inside the function. -/
theorem inside_of_needBody (ht : t.WellFormed) {body : NodeId} (h : b.needBody t = .ok body) :
    t.Inside body b.function := by
  obtain ⟨call, lambda, hcall, -, hlambda, hblock⟩ := spec_of_needBody h
  obtain ⟨-, hcall⟩ := Option.ite_none_right_eq_some.mp hcall
  obtain ⟨-, hlambda⟩ := Option.ite_none_right_eq_some.mp hlambda
  obtain ⟨-, hblock⟩ := Option.ite_none_right_eq_some.mp hblock
  have h₁ := ht.inside_of_child (List.mem_of_find?_eq_some hblock)
  have h₂ := ht.inside_of_child
    (List.mem_of_mem_tail (List.mem_of_getLast? (Option.filter_eq_some_iff.mp hlambda).1))
  have h₃ := ht.inside_of_child
    (Tree.mem_children_of_significant (List.mem_of_find?_eq_some hcall))
  exact (h₁.trans h₂).trans h₃

/-- A function without a block builds nothing. -/
theorem unbuilt_of_needBody {e : EditError} (h : b.needBody t = .error e) : e.Unbuilt := by
  rw [needBody_eq] at h
  split at h
  · next e' hconstruction =>
    obtain rfl := Except.error.inj h
    unfold needConstruction at hconstruction
    split at hconstruction
    · cases hconstruction
    · exact ⟨_, .inl (Except.error.inj hconstruction).symm⟩
  · next c _ =>
    split at h
    · cases h
    · exact ⟨_, .inr (Except.error.inj h).symm⟩

variable (ht : t.WellFormed) (htop : b.function ∈ tops) (hattached : t.attached b.function = true)

include ht htop hattached

/-- Carrying out a plan of drops inside a builder function, if it has a block. -/
theorem lenient_drops (drops : NodeId → Plan)
    (h : ∀ body, b.needBody t = .ok body → ∀ e ∈ drops body, ∃ n, t.Inside n b.function ∧
      (e = .dropStatement n ∨ e = .dropParameter n)) :
    Change.Lenient (liftExcept (b.needBody t >>= fun body => pure (drops body)) >>= Plan.apply)
      tops t := by
  cases hbody : b.needBody t with
  | error e =>
      refine ⟨.error e, t, ?_, .refl ht, fun e' he => ?_⟩
      · exact Change.run_bind_error (Change.run_liftExcept (.error e)) _
      · exact Except.error.inj he ▸ unbuilt_of_needBody hbody
  | ok body =>
      obtain ⟨u, hrun, hedited⟩ := Plan.run_apply_drops ht htop hattached (h body hbody)
      refine ⟨.ok (drops body).length, u, ?_, hedited, by simp⟩
      exact (Change.run_bind_ok (Change.run_liftExcept (.ok (drops body))) _).trans hrun

theorem lenient_dropUnused (fw : Framework) : (b.dropUnused fw).Lenient tops t := by
  refine lenient_drops ht htop hattached (fun body =>
    (Source.unused { tree := t, framework := fw } b.function body).map .dropParameter) ?_
  intro body _ e he
  obtain ⟨p, hp, rfl⟩ := List.mem_map.mp he
  exact ⟨p, ht.inside_of_parameter (List.mem_filter.mp hp).1, .inr rfl⟩

/-- **Dropping a field from a builder function** is refused only where the function builds
nothing. -/
theorem lenient_dropField (hfree : ¬ t.Loose tops b.function) (fw : Framework) (f : Field) :
    (b.dropField fw f).Lenient tops t := by
  have hstatements : Change.Lenient
      (liftExcept (Source.fieldPlan { tree := t, framework := fw } b f) >>= Plan.apply) tops t := by
    refine lenient_drops ht htop hattached (fun body =>
      ((t.significant body).filter fun statement =>
        (Source.namesBelow { tree := t, framework := fw } statement).any fun n =>
          Source.resolve? { tree := t, framework := fw } n == some f.decl).map .dropStatement) ?_
    intro body hbody e he
    obtain ⟨statement, hmem, rfl⟩ := List.mem_map.mp he
    have hchild := Tree.mem_children_of_significant (List.mem_filter.mp hmem).1
    exact ⟨statement, .trans (ht.inside_of_child hchild) (inside_of_needBody ht hbody), .inl rfl⟩
  have hboth := hstatements.bind ht (f := fun removed => b.dropUnused fw >>= fun unused =>
      pure (removed + unused)) fun removed u _ hu => by
    have hattached' : u.attached b.function = true := by
      rw [hu.wellFormed.attached_iff, hu.root_eq, hu.under_iff ht hfree]
      exact ht.attached_iff.mp hattached
    have hunused := lenient_dropUnused hu.wellFormed htop hattached' fw
    exact hunused.bind hu.wellFormed fun unused v _ hv => ⟨_, v, rfl, .refl hv.wellFormed, by simp⟩
  rw [bind_assoc] at hboth
  exact hboth

end Builder

/-! ## Components of the file -/

section Declared

variable {t : Tree} {fw : Framework}

theorem Component.declared_of_mem_all {c : Component} (h : c ∈ Component.all t fw) :
    c.Declared t := by
  obtain ⟨d, hd, h⟩ := List.mem_filterMap.mp h
  exact Component.declared_of_ofClass? h hd

variable (ht : t.WellFormed)

include ht

theorem Component.Declared.parent_decl {c : Component} (h : c.Declared t) :
    t.parent c.decl = some t.root :=
  ht.mem_children_iff.mp (Tree.mem_children_of_significant h.mem_declarations)

/-- The file is what a declaration of it is contained in. -/
theorem Tree.container?_declared (hfile : (t.kind t.root).isFile = true) {n : NodeId}
    (hn : t.parent n = some t.root) : t.container? n = some t.root := by
  rw [container?, ancestor?, ht.ancestors_of_parent hn, lineage,
    List.find?_cons_of_pos (by rw [hfile]; rfl)]

/-- The builder function of a component that the file declares is declared by the file, too. -/
theorem Component.parent_builder (hroot : t.parent t.root = none ∨ (t.kind t.root).isFile = true)
    {s : Source} (hs : s.tree = t) {c : Component} {b : Builder}
    (hc : t.parent c.decl = some t.root) (h : c.builder? s = some b) :
    t.parent b.function = some t.root := by
  subst hs
  obtain ⟨name, -, h⟩ := Option.bind_eq_some_iff.mp h
  obtain ⟨container, hcontainer, h⟩ := Option.bind_eq_some_iff.mp h
  obtain ⟨function, hfunction, hb⟩ := Option.bind_eq_some_iff.mp h
  obtain rfl := Option.some.inj hb
  obtain rfl : container = s.tree.root := by
    rcases hroot with hroot | hfile
    · rw [Tree.container?, Tree.ancestor?, ht.ancestors_of_parent hc, Tree.lineage, Tree.ancestors,
        hroot, Tree.chain_none] at hcontainer
      exact List.mem_singleton.mp (List.mem_of_find?_eq_some hcontainer)
    · rw [Tree.container?_declared ht hfile hc] at hcontainer
      exact (Option.some.inj hcontainer).symm
  exact ht.mem_children_iff.mp
    (Tree.mem_children_of_significant (List.mem_of_find?_eq_some hfunction))

variable {u : Tree} {tops : List NodeId} (htops : ∀ top ∈ tops, t.parent top = some t.root)

include htops

theorem Tree.Edited.parent_declared (h : t.Edited tops u) {n : NodeId}
    (hn : t.parent n = some t.root) : u.parent n = some u.root := by
  rw [h.parent_eq (not_loose_declared ht htops hn), h.root_eq, hn]

/-- A field can be dropped from any builder functions that the file declares. -/
theorem Change.run_dropFieldFrom (fw : Framework) {bs : List Builder}
    (hbs : ∀ b ∈ bs, b.function ∈ tops) (h : t.Edited tops u) (f : Field) :
    ∃ v, Change.run (Change.dropFieldFrom fw f bs) u = (.ok (), v) ∧ t.Edited tops v := by
  induction bs generalizing u with
  | nil => exact ⟨u, rfl, h⟩
  | cons b bs ih =>
      have htop := hbs b List.mem_cons_self
      have hfunction := htops _ htop
      have hattached := h.attached_declared ht htops hfunction
      have hfree : ¬ u.Loose tops b.function :=
        Tree.not_loose_declared h.wellFormed
          (fun top hmem => h.parent_declared ht htops (htops top hmem))
          (h.parent_declared ht htops hfunction)
      obtain ⟨v, hrun, hv⟩ := (Builder.lenient_dropField h.wellFormed htop hattached hfree fw
        f).run_skippingUnbuilt
      obtain ⟨w, hrun', hw⟩ := ih (fun b hb => hbs b (List.mem_cons_of_mem _ hb)) (h.trans ht hv)
      exact ⟨w, (Change.run_bind_ok hrun _).trans hrun', hw⟩

omit htops in
theorem Tree.Edited.dropConstructor (h : t.Edited tops u) {c : Component} (hmem : c.decl ∈ tops) :
    t.Edited tops (c.dropConstructor.run u).2 := by
  have hget : (get : Draft Tree).run u = (u, u) := rfl
  unfold Component.dropConstructor
  rw [Draft.run_bind, hget]
  dsimp only
  cases hlist : u.parameterList? c.decl with
  | none => exact h
  | some list =>
      obtain ⟨-, hfind⟩ := Option.ite_none_right_eq_some.mp hlist
      refine h.detach ht (h.loose_of_parent ht ?_ (.inr hmem))
      exact h.wellFormed.mem_children_iff.mp (List.mem_of_find?_eq_some hfind)

omit ht htops in
theorem Tree.Edited.setArgument (h : t.Edited tops u) {c : Component} (hbase : t.Loose tops c.base)
    (role : Role) (type : TypeExpr) : t.Edited tops ((c.setArgument role type).run u).2 := by
  have hget : (get : Draft Tree).run u = (u, u) := rfl
  unfold Component.setArgument
  rw [Draft.run_bind, hget]
  dsimp only
  split
  · split
    · exact h.setKind hbase _
    · exact h
  · exact h

/-- A schema can be taken from a component that the file declares. -/
theorem Component.run_unwire (fw : Framework) (h : t.Edited tops u) {c : Component}
    (hc : c.Declared t) (hmem : c.decl ∈ tops) {inits : List Initializer}
    (hinits : ∀ i ∈ inits, t.Inside i.function c.decl ∧
      ∀ p, i.propsParameter = some p → t.Inside p c.decl) (role : Role) :
    ∃ v, Change.run (c.unwire fw inits role) u = (.ok (), v) ∧ t.Edited tops v := by
  have hbase : t.Loose tops c.base := .inr ⟨c.decl, hmem, ht.inside_of_child hc.mem_base⟩
  cases role with
  | props =>
      have hattached := h.attached_declared ht htops (hc.parent_decl ht)
      have hneed : Change.run (Change.needAttached c.decl) u = (.ok (), u) := by
        rw [Change.run_needAttached, hattached]
        rfl
      obtain ⟨v, hrun, hv⟩ : ∃ v, Change.run (c.dropProps fw) u = (.ok (), v) ∧
          t.Edited tops v :=
        ⟨_, (Change.run_bind_ok hneed _).trans rfl,
          ((h.dropConstructor ht hmem).retypeSupertype hbase _).callWith_nil ht hbase⟩
      refine ⟨_, (Change.run_bind_ok hrun _).trans rfl, hv.foldl_detach ht fun p hp => ?_⟩
      obtain ⟨i, hi, hip⟩ := List.mem_filterMap.mp hp
      exact .inr ⟨c.decl, hmem, (hinits i hi).2 p hip⟩
  | state =>
      refine ⟨_, rfl, (h.setArgument hbase .state _).foldl_detach ht fun f hf => ?_⟩
      obtain ⟨i, hi, rfl⟩ := List.mem_map.mp hf
      exact .inr ⟨c.decl, hmem, (hinits i hi).1⟩

/-- A schema can be taken from any components that the file declares. -/
theorem run_unwireAll (fw : Framework) {users : List (Component × List Initializer)}
    (husers : ∀ x ∈ users, x.1.Declared t ∧ x.1.decl ∈ tops ∧ ∀ i ∈ x.2,
      t.Inside i.function x.1.decl ∧ ∀ p, i.propsParameter = some p → t.Inside p x.1.decl)
    (h : t.Edited tops u) (role : Role) :
    ∃ v, Change.run (unwireAll fw role users) u = (.ok (), v) ∧ t.Edited tops v := by
  induction users generalizing u with
  | nil => exact ⟨u, rfl, h⟩
  | cons x users ih =>
      obtain ⟨hc, hmem, hinits⟩ := husers x List.mem_cons_self
      obtain ⟨v, hrun, hv⟩ := Component.run_unwire ht htops fw h hc hmem hinits role
      obtain ⟨w, hrun', hw⟩ := ih (fun x hx => husers x (List.mem_cons_of_mem _ hx)) hv
      exact ⟨w, (Change.run_bind_ok hrun _).trans hrun', hw⟩

omit htops in
/-- The state initialisers of a component and what they take are inside its class. -/
theorem Component.inside_of_mem_initializers {s : Source} (hs : s.tree = t) {c : Component}
    {i : Initializer} (h : i ∈ c.initializers s) :
    t.Inside i.function c.decl ∧ ∀ p, i.propsParameter = some p → t.Inside p c.decl := by
  subst hs
  obtain ⟨member, hmember, h⟩ := List.mem_filterMap.mp h
  have hinside : s.tree.Inside member c.decl := by
    refine ht.inside_of_child ?_
    unfold Tree.members at hmember
    split at hmember
    · exact Tree.mem_children_of_significant hmember
    · split at hmember
      · exact Tree.mem_children_of_significant (List.mem_filter.mp hmember).1
      · cases hmember
  obtain ⟨-, -, h⟩ := Option.bind_eq_some_iff.mp h
  obtain ⟨-, -, h⟩ := Option.bind_eq_some_iff.mp h
  dsimp only at h
  split at h
  · obtain rfl := Option.some.inj h
    exact ⟨hinside, by simp⟩
  · next p hp =>
    obtain ⟨-, -, h⟩ := Option.bind_eq_some_iff.mp h
    obtain rfl := Option.some.inj h
    refine ⟨hinside, fun q hq => ?_⟩
    obtain rfl := Option.some.inj hq
    exact .trans (ht.inside_of_parameter (by rw [hp]; exact List.mem_singleton_self _)) hinside
  · cases h

end Declared

/-! ## Fixes that look first -/

namespace Change

variable {t : Tree} {fw : Framework}

/-- What follows the look at a target. -/
theorem run_needTarget_bind {α : Type} (id : NodeId) (f : Unit → Change α) :
    Change.run (needTarget id >>= f) t =
      if t.attached id then Change.run (f ()) t else (.error (.staleTarget id), t) := by
  have htarget := run_needTarget (t := t) id
  split at htarget
  · next hattached => rw [run_bind_ok htarget, if_pos hattached]
  · next hattached => rw [run_bind_error htarget, if_neg hattached]

theorem run_needComponent (id : NodeId) : Change.run (needComponent fw id) t =
    ((if t.attached id then Component.ofClass? t fw id else none).elim
      (.error (.staleTarget id)) .ok, t) := by
  unfold needComponent
  rw [run_needTarget_bind, run_bind_ok (run_get t)]
  split
  · cases Component.ofClass? t fw id <;> rfl
  · rfl

theorem run_needSchema (id : NodeId) (role : Role) : Change.run (needSchema fw id role) t =
    ((if t.attached id then (Schema.of? t fw id).filter (·.role = role) else none).elim
      (.error (.staleTarget id)) .ok, t) := by
  unfold needSchema
  rw [run_needTarget_bind, run_bind_ok (run_get t)]
  split
  · cases (Schema.of? t fw id).filter (·.role = role) <;> rfl
  · rfl

/-- What an attached target was found to be. -/
theorem eq_some_of_elim {α : Type} {p : Prop} [Decidable p] {found : Option α} {e : EditError}
    {a : α} (h : (if p then found else none).elim (.error e) .ok = Except.ok a) :
    p ∧ found = some a := by
  split at h
  · next hp =>
    cases found with
    | none => cases h
    | some b => exact ⟨hp, congrArg some (Except.ok.inj h)⟩
  · cases h

theorem atomic_throw {α : Type} (e : EditError) : (throw e : Change α).Atomic t := by
  intro e' u hrun
  exact (Prod.mk.inj hrun).2.symm

/-- What follows a look at the whole tree. -/
theorem Atomic.get_bind {α : Type} {f : Tree → Change α} (h : (f t).Atomic t) :
    Atomic (get >>= f) t := by
  refine Atomic.bind rfl fun u hu => ?_
  obtain rfl : t = u := Except.ok.inj (Prod.mk.inj hu).1
  exact h

theorem atomic_makeMutable (target : NodeId) : (makeMutable target).Atomic t := by
  refine Atomic.bind (by rw [run_needTarget]) fun _ _ => Atomic.get_bind ?_
  split
  · exact Atomic.of_run_ok rfl
  · exact atomic_throw _

theorem atomic_renameDeclaration (target : NodeId) (name : Option String) :
    (renameDeclaration target name).Atomic t := by
  cases name with
  | none => exact atomic_throw _
  | some name =>
      refine Atomic.bind (by rw [run_needTarget]) fun _ _ => Atomic.get_bind ?_
      split
      · exact Atomic.of_run_ok rfl
      · exact atomic_throw _

theorem atomic_synchronize (ht : t.WellFormed) (target : NodeId) :
    (Change.synchronize fw target).Atomic t := by
  refine Atomic.bind (by rw [run_needTarget]) fun _ _ => Atomic.bind rfl fun s _ => ?_
  split
  · next b _ =>
    intro e u hrun
    rcases hb : Change.run (b.synchronize fw) t with ⟨r, v⟩
    cases r with
    | ok n => cases (run_bind_ok hb _).symm.trans hrun
    | error e' =>
        cases (run_bind_error hb _).symm.trans hrun
        exact (Builder.refused_synchronize ht hb).1
  · exact atomic_throw _

theorem run_passProps {c : Component} (hattached : t.attached c.decl = true) (props : TypeExpr) :
    ∃ u, Change.run (c.passProps props) t = (.ok (), u) := by
  have hneed : Change.run (Change.needAttached c.decl) t = (.ok (), t) := by
    rw [Change.run_needAttached, hattached]
    rfl
  unfold Component.passProps
  rw [run_bind_ok hneed, run_bind_ok (run_get t)]
  cases c.passesProps t <;> exact ⟨_, rfl⟩

theorem atomic_takeProps (target : NodeId) : (takeProps fw target).Atomic t := by
  refine Atomic.bind (by rw [run_needComponent]) fun c hc => Atomic.get_bind ?_
  rw [run_needComponent] at hc
  obtain ⟨hattached, hclass⟩ := eq_some_of_elim (Prod.mk.inj hc).1
  split
  · next props _ =>
    obtain rfl := Component.decl_of_ofClass? hclass
    obtain ⟨u, hrun⟩ := run_passProps hattached props
    exact .of_run_ok hrun
  · exact atomic_throw _

variable (ht : t.WellFormed)

include ht

/-- A declaration of the file or a part of it can be removed. -/
theorem run_removeDeclaration (hroot : t.parent t.root = none ∨ (t.kind t.root).isFile = true)
    {target : NodeId} (hattached : t.attached target = true) :
    ∃ u : Tree, u.WellFormed ∧
      Change.run (removeDeclaration fw target) t = (.ok (), u.detach target) := by
  -- the builder functions are declared by the file, so each can be edited in turn
  generalize hbs : Source.buildersUsing { tree := t, framework := fw } target = bs
  have hdeclared : ∀ b ∈ bs, t.parent b.function = some t.root := by
    intro b hb
    rw [← hbs] at hb
    unfold Source.buildersUsing at hb
    split at hb
    · split at hb
      · obtain ⟨c, hc, hbuilder⟩ := List.mem_filterMap.mp hb
        have hc := Component.declared_of_mem_all (List.mem_filter.mp hc).1
        exact Component.parent_builder ht hroot rfl (hc.parent_decl ht) hbuilder
      · cases hb
    · cases hb
  have htops : ∀ top ∈ bs.map (·.function), t.parent top = some t.root := by simpa using hdeclared
  obtain ⟨u, hrun, hu⟩ := run_dropFieldFrom ht htops fw
    (fun (b : Builder) hb => List.mem_map_of_mem hb) (.refl ht) (t.fieldAt target)
  refine ⟨u, hu.wellFormed, ?_⟩
  unfold removeDeclaration
  rw [run_needTarget_bind, if_pos hattached, run_bind_ok (run_source fw), hbs]
  exact (run_bind_ok hrun _).trans rfl

/-- A schema that is part of the file can be removed. -/
theorem run_removeSchema {target : NodeId} {role : Role} (hattached : t.attached target = true)
    (hrole : Role.of? t fw target = some role) :
    ∃ u : Tree, u.WellFormed ∧
      Change.run (removeSchema fw target role) t = (.ok (), u.detach target) := by
  generalize hi : ({ decl := target, role } : Schema) = i
  have hschema : Change.run (needSchema fw target role) t = (.ok i, t) := by
    have hfound : (Schema.of? t fw target).filter (·.role = role) = some i :=
      Option.filter_eq_some_iff.mpr
        ⟨by rw [Schema.of?, hrole, Option.map_some, hi], by simp [← hi]⟩
    rw [run_needSchema, if_pos hattached, hfound]
    rfl
  have hneed : Change.run (Change.needAttached i.decl) t = (.ok (), t) := by
    rw [Change.run_needAttached, ← hi, hattached]
    rfl
  generalize husers : i.users { tree := t, framework := fw } = users
  have hparts : ∀ x ∈ users, x.1.Declared t ∧ x.1.decl ∈ users.map (·.1.decl) ∧ ∀ i ∈ x.2,
      t.Inside i.function x.1.decl ∧ ∀ p, i.propsParameter = some p → t.Inside p x.1.decl := by
    intro x hx
    have hmem : x.1.decl ∈ users.map (·.1.decl) := List.mem_map_of_mem hx
    rw [← husers] at hx
    obtain ⟨c, hc, rfl⟩ := List.mem_map.mp hx
    refine ⟨Component.declared_of_mem_all (List.mem_filter.mp hc).1, hmem, fun i hi => ?_⟩
    exact Component.inside_of_mem_initializers ht rfl hi
  have htops : ∀ top ∈ users.map (·.1.decl), t.parent top = some t.root := by
    intro top htop
    obtain ⟨x, hx, rfl⟩ := List.mem_map.mp htop
    exact (hparts x hx).1.parent_decl ht
  obtain ⟨u, hrun, hu⟩ := run_unwireAll ht htops fw hparts (.refl ht) i.role
  refine ⟨u, hu.wellFormed, ?_⟩
  have hremove : Change.run (i.remove fw) t = (.ok users.length, u.detach target) := by
    unfold Schema.remove
    rw [run_bind_ok hneed, run_bind_ok (run_source fw), husers, run_bind_ok hrun, ← hi]
    rfl
  exact (run_bind_ok hschema _).trans ((run_bind_ok hremove _).trans rfl)

theorem atomic_removeDeclaration (hroot : t.parent t.root = none) (target : NodeId) :
    (removeDeclaration fw target).Atomic t := by
  by_cases hattached : t.attached target = true
  · obtain ⟨u, -, hrun⟩ := run_removeDeclaration ht (.inl hroot) hattached
    exact .of_run_ok hrun
  · intro e u hrun
    unfold removeDeclaration at hrun
    rw [run_needTarget_bind, if_neg hattached] at hrun
    exact (Prod.mk.inj hrun).2.symm

theorem atomic_removeSchema (target : NodeId) (role : Role) :
    (removeSchema fw target role).Atomic t := by
  intro e u hrun
  rcases hneed : Change.run (needSchema fw target role) t with ⟨r, v⟩
  have hlook := hneed
  rw [run_needSchema] at hlook
  obtain ⟨hr, rfl⟩ := Prod.mk.inj hlook
  cases r with
  | error e' =>
      cases (run_bind_error hneed _).symm.trans hrun
      rfl
  | ok i =>
      obtain ⟨hattached, hfound⟩ := eq_some_of_elim hr
      obtain ⟨hof, hrole⟩ := Option.filter_eq_some_iff.mp hfound
      obtain ⟨role', hrole', rfl⟩ := Option.map_eq_some_iff.mp hof
      obtain rfl : role' = role := of_decide_eq_true hrole
      obtain ⟨u, -, hok⟩ := run_removeSchema ht hattached hrole'
      cases hok.symm.trans hrun

end Change

/-! ## Generating anew -/

namespace Tree

variable {t : Tree} {f n : NodeId}

/-- What lies under a node that is taken out is not part of the file any more. -/
theorem not_under_detach (hroot : t.parent t.root = none) (hf : t.parent f ≠ none)
    (h : t.Under n f) : ¬ (t.detach f).Under n t.root := by
  induction h using Relation.ReflTransGen.head_induction_on with
  | refl =>
      intro hunder
      have hfree : (t.detach f).parent f = none := by rw [parent_detach, if_pos rfl]
      rw [eq_of_under_of_parent_none hfree hunder] at hf
      exact hf hroot
  | head hp _ ih =>
      intro hunder
      rcases Relation.ReflTransGen.cases_head hunder with rfl | ⟨q, hq, hunder⟩
      · cases hroot.symm.trans hp
      · obtain rfl := Option.some.inj ((parent_of_detach hq).symm.trans hp)
        exact ih hunder

/-- Everything else stays where it is. -/
theorem under_detach {r : NodeId} (hn : t.Under n r) (hf : ¬ t.Under n f) :
    (t.detach f).Under n r := by
  induction hn using Relation.ReflTransGen.head_induction_on with
  | refl => exact .refl
  | @head m p hp _ ih =>
      have hm : m ≠ f := fun heq => hf (heq ▸ .refl)
      refine .head (b := p) ?_ (ih fun hunder => hf (.head hp hunder))
      show (t.detach f).parent m = some p
      rw [parent_detach, if_neg hm]
      exact hp

end Tree

namespace Component

variable {t : Tree} {fw : Framework} {c : Component}

/-- A builder function of a component hangs somewhere. -/
theorem exists_parent_builder (ht : t.WellFormed) {b : Builder}
    (h : c.builder? { tree := t, framework := fw } = some b) :
    (t.kind b.function).isFunction = true ∧ (∃ p, t.parent b.function = some p) ∧
      ∃ p, t.parent c.decl = some p := by
  obtain ⟨name, -, h⟩ := Option.bind_eq_some_iff.mp h
  obtain ⟨container, hcontainer, h⟩ := Option.bind_eq_some_iff.mp h
  obtain ⟨function, hfunction, hb⟩ := Option.bind_eq_some_iff.mp h
  obtain rfl := Option.some.inj hb
  have hmem := Tree.mem_children_of_significant (List.mem_of_find?_eq_some hfunction)
  refine ⟨?_, ⟨container, ht.mem_children_iff.mp hmem⟩, ?_⟩
  · have htest := List.find?_some hfunction
    simp only [Bool.and_eq_true] at htest
    exact htest.1.1
  · have habove := List.mem_of_find?_eq_some hcontainer
    unfold Tree.ancestors at habove
    cases hp : t.parent c.decl with
    | none =>
        rw [hp, Tree.chain_none] at habove
        cases habove
    | some p => exact ⟨p, rfl⟩

/-- Behind a class that hangs somewhere there is room for a builder function. -/
theorem run_addBuilder_of_parent (fw : Framework) (ht : t.WellFormed)
    (hclass : (t.kind c.decl).isClass = true) (hattached : t.attached c.decl = true)
    {p : NodeId} (hp : t.parent c.decl = some p) :
    ∃ b u, Change.run (c.addBuilder fw) t = (.ok b, u) := by
  obtain ⟨blueprint, hb⟩ := exists_blueprint fw hclass
  obtain ⟨n, w, hgrown, -, hfree, -, hrun⟩ := run_addBuilder ht hattached hb
  have hp' : w.parent c.decl = some p := by
    rw [hgrown.parent_eq (Tree.lt_size_of_parent hp) (by simp), hp]
  obtain ⟨i, -, hinsert⟩ := hgrown.wellFormed.insertAfter_of_parent hfree hp'
  rw [hinsert] at hrun
  exact ⟨_, _, hrun⟩

/-- A class at the top of the tree gets none, but the draft of it stays. -/
theorem run_addBuilder_of_parent_none (fw : Framework) (ht : t.WellFormed)
    (hclass : (t.kind c.decl).isClass = true) (hattached : t.attached c.decl = true)
    (hp : t.parent c.decl = none) :
    ∃ e u, Change.run (c.addBuilder fw) t = (.error e, u) ∧ u ≠ t := by
  obtain ⟨blueprint, hb⟩ := exists_blueprint fw hclass
  obtain ⟨n, w, hgrown, hnew, -, hdrawn, hrun⟩ := run_addBuilder ht hattached hb
  have hlt : c.decl < t.size := by
    refine Nat.lt_of_not_le fun hle => ?_
    simp [Tree.kind_of_le hle, Kind.isClass] at hclass
  have hp' : w.parent c.decl = none := by
    rw [hgrown.parent_eq hlt (by simp), hp]
  rw [Tree.insertAfter_of_parent_none hp'] at hrun
  refine ⟨_, w, hrun, ?_⟩
  rintro rfl
  exact absurd hdrawn.function.lt_size (Nat.not_lt_of_le hnew)

/-- A class that went with a node that was taken out gets none either. -/
theorem run_addBuilder_of_under (fw : Framework) (ht : t.WellFormed)
    (hroot : t.parent t.root = none) {f : NodeId} (hf : t.parent f ≠ none)
    (h : t.Under c.decl f) :
    Change.run (c.addBuilder fw) (t.detach f) = (.error (.detachedNode c.decl), t.detach f) := by
  have hlost : (t.detach f).attached c.decl = false := by
    rw [← Bool.not_eq_true, (ht.detach _).attached_iff, Tree.root_detach]
    exact Tree.not_under_detach hroot hf h
  refine Change.run_bind_error ?_ _
  rw [Change.run_needAttached, hlost]
  rfl

/-- A class outside of it is still there, and so is its place. -/
theorem run_addBuilder_of_not_under (fw : Framework) (ht : t.WellFormed)
    (hclass : (t.kind c.decl).isClass = true) (hattached : t.attached c.decl = true)
    {p f : NodeId} (hp : t.parent c.decl = some p) (h : ¬ t.Under c.decl f) :
    ∃ b u, Change.run (c.addBuilder fw) (t.detach f) = (.ok b, u) := by
  have hne : c.decl ≠ f := fun heq => h (heq ▸ .refl)
  have hkept : (t.detach f).attached c.decl = true := by
    rw [(ht.detach _).attached_iff, Tree.root_detach]
    exact Tree.under_detach (ht.attached_iff.mp hattached) h
  refine run_addBuilder_of_parent fw (ht.detach f) (by rwa [Tree.kind_detach]) hkept (p := p) ?_
  rw [Tree.parent_detach, if_neg hne, hp]

end Component

/-- Whether a fix generates a builder function anew for a component whose class stands inside the
old one, or is the top of the tree. -/
def Fix.Uproots (fix : Fix) (fw : Framework) (t : Tree) : Prop :=
  ∃ c, fix = .regenerate c.decl ∧ t.attached c.decl = true ∧
    Component.ofClass? t fw c.decl = some c ∧ (c.decl = t.root ∨
      ∃ b, c.builder? { tree := t, framework := fw } = some b ∧ t.Inside c.decl b.function)

namespace Change

variable {t : Tree} {fw : Framework}

theorem run_regenerate {target : NodeId} {c : Component}
    (h : Change.run (needComponent fw target) t = (.ok c, t)) :
    Change.run (regenerate fw target) t = Change.run (c.addBuilder fw >>= fun _ => pure ())
      (match c.builder? { tree := t, framework := fw } with
        | some b => t.detach b.function
        | none => t) := by
  unfold regenerate
  rw [run_bind_ok h, run_bind_ok (run_source fw)]
  cases c.builder? { tree := t, framework := fw } <;> rfl

/-- **A refused generation that leaves a trace.** -/
theorem refused_regenerate (ht : t.WellFormed) (hroot : t.parent t.root = none) {target : NodeId}
    {e : EditError} {u : Tree} (h : Change.run (regenerate fw target) t = (.error e, u)) :
    u ≠ t ↔ (Fix.regenerate target).Uproots fw t := by
  rcases hneed : Change.run (needComponent fw target) t with ⟨r, v⟩
  have hlook := hneed
  rw [run_needComponent] at hlook
  obtain ⟨hr, rfl⟩ := Prod.mk.inj hlook
  cases r with
  | error e' =>
      -- the target is no component, and nothing was done
      cases (run_bind_error hneed _).symm.trans h
      refine iff_of_false (fun hne => hne rfl) ?_
      rintro ⟨c, hc, hattached, hclass, -⟩
      cases hc
      simp [hattached, hclass] at hr
  | ok c =>
      obtain ⟨hattached, hclass⟩ := eq_some_of_elim hr
      obtain rfl := Component.decl_of_ofClass? hclass
      have hisClass := (Option.ite_none_right_eq_some.mp hclass).1
      rw [run_regenerate hneed] at h
      cases hbuilder : c.builder? { tree := t, framework := fw } with
      | none =>
          rw [hbuilder] at h
          cases hp : t.parent c.decl with
          | some p =>
              obtain ⟨b, v, hrun⟩ :=
                Component.run_addBuilder_of_parent fw ht hisClass hattached hp
              cases (run_bind_ok hrun _).symm.trans h
          | none =>
              obtain ⟨e', v, hrun, hne⟩ :=
                Component.run_addBuilder_of_parent_none fw ht hisClass hattached hp
              cases (run_bind_error hrun _).symm.trans h
              have hdecl := Tree.eq_of_under_of_parent_none hp (ht.attached_iff.mp hattached)
              exact iff_of_true hne ⟨c, rfl, hattached, hclass, .inl hdecl⟩
      | some b =>
          rw [hbuilder] at h
          obtain ⟨hfunction, ⟨q, hq⟩, p, hp⟩ := Component.exists_parent_builder ht hbuilder
          have hne : c.decl ≠ b.function := by
            intro heq
            rw [heq] at hisClass
            cases hkind : t.kind b.function <;>
              simp [hkind, Kind.isClass, Kind.isFunction] at hisClass hfunction
          by_cases hinside : t.Under c.decl b.function
          · have hrun := Component.run_addBuilder_of_under fw ht hroot (by rw [hq]; simp) hinside
            cases (run_bind_error hrun _).symm.trans h
            refine iff_of_true ?_ ⟨c, rfl, hattached, hclass, .inr ⟨b, hbuilder, ?_⟩⟩
            · intro heq
              have hgone : (t.detach b.function).parent b.function = none := by
                rw [Tree.parent_detach, if_pos rfl]
              rw [heq, hq] at hgone
              cases hgone
            · exact (Tree.under_iff_eq_or_inside.mp hinside).resolve_left hne.symm
          · obtain ⟨b', v, hrun⟩ :=
              Component.run_addBuilder_of_not_under fw ht hisClass hattached hp hinside
            cases (run_bind_ok hrun _).symm.trans h

end Change

/-! ## All fixes -/

namespace Fix

variable {t : Tree} {fw : Framework}

theorem not_uproots {fix : Fix} (h : ∀ target, fix ≠ .regenerate target) : ¬ fix.Uproots fw t := by
  rintro ⟨c, hc, -⟩
  exact h c.decl hc

/-- **A refused fix changes nothing, but for one case.** A fix that is refused leaves the file as it
was, unless it generates a builder function anew for a component whose class stands inside that
very function, or is the top of the tree. -/
theorem refused_changes_iff {fix : Fix} {e : EditError} {u : Tree} (ht : t.WellFormed)
    (hroot : t.parent t.root = none) (h : Change.run (fix.apply fw) t = (.error e, u)) :
    u ≠ t ↔ fix.Uproots fw t := by
  have hatomic (hfix : ∀ target, fix ≠ .regenerate target) (hc : (fix.apply fw).Atomic t) :
      u ≠ t ↔ fix.Uproots fw t :=
    iff_of_false (fun hne => hne (hc e u h)) (not_uproots hfix)
  cases fix with
  | regenerate target => exact Change.refused_regenerate ht hroot h
  | makeMutable target => exact hatomic (by simp) (Change.atomic_makeMutable target)
  | rename target name => exact hatomic (by simp) (Change.atomic_renameDeclaration target name)
  | removeDeclaration target =>
      exact hatomic (by simp) (Change.atomic_removeDeclaration ht hroot target)
  | removeSchema target role =>
      exact hatomic (by simp) (Change.atomic_removeSchema ht target role)
  | synchronize target => exact hatomic (by simp) (Change.atomic_synchronize ht target)
  | takeProps target => exact hatomic (by simp) (Change.atomic_takeProps target)

/-- The function `fun RBuilder.c() { class C : RComponent<CProps, RState>() }`. -/
def classInBuilder : Draft NodeId := do
  let base ← Draft.supertype (.generic "RComponent" [.simple "CProps", .simple "RState"]) (some [])
  let component ← Draft.classDecl "C" none [base] []
  let body ← Draft.block [component]
  let decl : FunctionDecl := { name := some "c", receiver := some (.simple "RBuilder") }
  let function ← Draft.function decl [] body
  Draft.declare function

/-- The class is found inside the function that would be generated anew. For the function itself
nothing can be generated, and this refusal changes nothing. -/
theorem refused_changes_iff_classInBuilder :
    let t := (classInBuilder.run (Tree.ofFile "F")).2
    t.WellFormed ∧ t.parent t.root = none ∧
      ((Fix.regenerate 2).Uproots {} t ∧
        ∃ e u, Change.run ((Fix.regenerate 2).apply {}) t = (.error e, u) ∧ u ≠ t) ∧
      ¬ (Fix.regenerate 5).Uproots {} t ∧
        ∃ e, Change.run ((Fix.regenerate 5).apply {}) t = (.error e, t) := by
  intro t
  have hfacts : t.WellFormed ∧ t.parent t.root = none ∧ t.attached 2 = true ∧
      Component.ofClass? t {} 2 = some { decl := 2, base := 1 } ∧
      Component.builder? { decl := 2, base := 1 } { tree := t, framework := {} } =
        some { component := { decl := 2, base := 1 }, function := 5 } ∧
      t.parent 2 = some 3 ∧ t.parent 3 = some 5 ∧ Component.ofClass? t {} 5 = none ∧
      (Change.run ((Fix.regenerate 2).apply {}) t).1 = .error (.detachedNode 2) ∧
      (Change.run ((Fix.regenerate 5).apply {}) t).1 = .error (.staleTarget 5) := by
    decide +kernel
  obtain ⟨ht, hroot, hattached, hclass, hbuilder, h₂, h₃, hnone, herror, hstale⟩ := hfacts
  have huproots : (Fix.regenerate 2).Uproots {} t :=
    ⟨_, rfl, hattached, hclass, .inr ⟨_, hbuilder, .tail (.single h₂) h₃⟩⟩
  have hharmless : ¬ (Fix.regenerate 5).Uproots {} t := by
    rintro ⟨c, htarget, -, hc, -⟩
    rw [← Fix.regenerate.inj htarget, hnone] at hc
    cases hc
  rcases hrun : Change.run ((Fix.regenerate 2).apply {}) t with ⟨r, u⟩
  rcases hrun' : Change.run ((Fix.regenerate 5).apply {}) t with ⟨r', u'⟩
  rw [hrun] at herror
  rw [hrun'] at hstale
  obtain rfl : r = .error (.detachedNode 2) := herror
  obtain rfl : r' = .error (.staleTarget 5) := hstale
  obtain rfl : u' = t := by_contra fun hne =>
    hharmless ((refused_changes_iff ht hroot hrun').mp hne)
  exact ⟨ht, hroot, ⟨huproots, _, u, rfl, (refused_changes_iff ht hroot hrun).mpr huproots⟩,
    hharmless, _, rfl⟩

/-- **A refused fix that removes a function.** The builder function of `C` is taken out of the file,
and with it the class behind which the new one should go. -/
theorem regenerate_removes_class :
    let t := (classInBuilder.run (Tree.ofFile "F")).2
    t.WellFormed ∧ (Change.run ((Fix.regenerate 2).apply {}) t).1 = .error (.detachedNode 2) ∧
      (Change.run ((Fix.regenerate 2).apply {}) t).2 = t.detach 5 ∧ t.attached 5 = true ∧
      (t.detach 5).attached 5 = false := by
  decide +kernel

end Fix

end ComponentAudit
