import ComponentAudit.Proofs.Edit.Beside
import ComponentAudit.Proofs.Edit.Forwarded

set_option autoImplicit false

/-! # Taking a schema from its users

A schema is taken from each of its users in turn, and each time the file is looked at anew. What one
user loses lies below its class, so it is the same whenever the user has its turn. What happens to
all users is then described on the tree before it: some supertypes get another type, some nodes are
cut off, and that is all (`Tree.Rewired`).

Main statement: `rewired_unwireAll`, what a run over all users does.
-/

namespace ComponentAudit

/-! ## Kinds and links after a removal -/

namespace Tree

/-- Whether a tree comes from another one by rewriting the kinds of some nodes and by cutting some
nodes off from their parents. -/
structure Rewired (t : Tree) (rewrite : Kind → Kind) (bases dropped : List NodeId) (u : Tree) :
    Prop where
  root_eq : u.root = t.root
  size_eq : u.size = t.size
  kind_eq : ∀ n, u.kind n = if n ∈ bases then rewrite (t.kind n) else t.kind n
  parent_eq : ∀ n, u.parent n = if n ∈ dropped then none else t.parent n
  children_eq : ∀ n, u.children n = (t.children n).filter (· ∉ dropped)

namespace Rewired

variable {t u v : Tree} {rewrite : Kind → Kind} {bases bases' dropped dropped' : List NodeId}

theorem refl (t : Tree) (rewrite : Kind → Kind) : t.Rewired rewrite [] [] t where
  root_eq := rfl
  size_eq := rfl
  kind_eq := by simp
  parent_eq := by simp
  children_eq := by simp

theorem trans (h : t.Rewired rewrite bases dropped u) (h' : u.Rewired rewrite bases' dropped' v)
    (hnew : ∀ n ∈ bases', n ∉ bases) :
    t.Rewired rewrite (bases ++ bases') (dropped ++ dropped') v where
  root_eq := h'.root_eq.trans h.root_eq
  size_eq := h'.size_eq.trans h.size_eq
  kind_eq := by
    intro n
    rw [h'.kind_eq, h.kind_eq]
    by_cases hn : n ∈ bases'
    · simp [hn, hnew n hn]
    · simp [hn]
  parent_eq := by
    intro n
    rw [h'.parent_eq, h.parent_eq]
    by_cases hn : n ∈ dropped' <;> simp [hn]
  children_eq := by
    intro n
    rw [h'.children_eq, h.children_eq, List.filter_filter]
    refine List.filter_congr fun c _ => ?_
    by_cases hc : c ∈ dropped <;> simp [hc]

/-- Only the members of the two lists count. -/
theorem congr (h : t.Rewired rewrite bases dropped u) (hbases : ∀ n, n ∈ bases ↔ n ∈ bases')
    (hdropped : ∀ n, n ∈ dropped ↔ n ∈ dropped') : t.Rewired rewrite bases' dropped' u where
  root_eq := h.root_eq
  size_eq := h.size_eq
  kind_eq := by
    intro n
    rw [h.kind_eq, if_congr (hbases n) rfl rfl]
  parent_eq := by
    intro n
    rw [h.parent_eq, if_congr (hdropped n) rfl rfl]
  children_eq := by
    intro n
    rw [h.children_eq]
    exact List.filter_congr fun c _ => by simp [hdropped c]

theorem wellFormed (h : t.Rewired rewrite bases dropped u) (ht : t.WellFormed) : u.WellFormed where
  mem_children_iff := by
    intro p c
    rw [h.children_eq, h.parent_eq, List.mem_filter, ht.mem_children_iff]
    by_cases hc : c ∈ dropped <;> simp [hc]
  nodup_children := by
    intro p
    rw [h.children_eq]
    exact (ht.nodup_children p).filter _
  acyclic := by
    intro n hn
    refine ht.acyclic n (hn.mono fun c p hc => ?_)
    rw [h.parent_eq] at hc
    by_cases hd : c ∈ dropped
    · simp [hd] at hc
    · simpa [hd] using hc

theorem foldl_detach (ht : t.WellFormed) (rewrite : Kind → Kind) (ds : List NodeId) :
    t.Rewired rewrite [] ds (ds.foldl Tree.detach t) := by
  obtain ⟨hsize, hroot, hnode⟩ := Tree.foldl_detach ht ds
  exact ⟨hroot, hsize, fun n => by simpa using (hnode n).1, fun n => (hnode n).2.1,
    fun n => (hnode n).2.2⟩

/-- Rewriting one node. -/
theorem of_kind {n : NodeId} (hroot : u.root = t.root) (hsize : u.size = t.size)
    (hkind : ∀ m, u.kind m = if m = n then rewrite (t.kind n) else t.kind m)
    (hparent : ∀ m, u.parent m = t.parent m) (hchildren : ∀ m, u.children m = t.children m) :
    t.Rewired rewrite [n] [] u where
  root_eq := hroot
  size_eq := hsize
  kind_eq := by
    intro m
    rw [hkind]
    by_cases hm : m = n <;> simp [hm]
  parent_eq := by simpa using hparent
  children_eq := by simpa using hchildren

/-- What lies below a node stays as it is if nothing there is rewritten or cut off. -/
theorem sameBelow (h : t.Rewired rewrite bases dropped u) (ht : t.WellFormed) {x : NodeId}
    (hbases : ∀ n ∈ bases, ¬ t.Under n x) (hdropped : ∀ n ∈ dropped, ¬ t.Under n x) :
    t.SameBelow u x := by
  intro y hy
  constructor
  · rw [h.kind_eq, if_neg fun hmem => hbases y hmem hy]
  · rw [h.children_eq, List.filter_eq_self]
    intro c hc
    have hunder : t.Under c x := .head (ht.mem_children_iff.mp hc) hy
    simpa using fun hmem => hdropped c hmem hunder

end Rewired

/-- A node without a parent is not in the file, unless it is the file. -/
theorem WellFormed.not_attached {t : Tree} (ht : t.WellFormed) {n : NodeId}
    (hparent : t.parent n = none) (hne : n ≠ t.root) : t.attached n = false := by
  refine Bool.eq_false_iff.mpr fun hattached => ?_
  rcases Relation.ReflTransGen.cases_head (ht.attached_iff.mp hattached) with heq | ⟨q, hq, -⟩
  · exact hne heq
  · cases hq.symm.trans hparent

end Tree

/-! ## One user -/

namespace Kind

/-- The kind of a supertype with one of its arguments replaced, if it has that many. -/
def withArgument (index : Nat) (arg : TypeExpr) : Kind → Kind
  | supertype type called => supertype { type with args := type.args.set index arg } called
  | k => k

/-- The kind of a base class that takes no props. -/
def withoutProps (fw : Framework) : Kind → Kind
  | supertype type _ =>
    supertype (.generic type.name
      [.simple fw.propsBase, type.args[1]?.getD (.simple fw.stateBase)]) true
  | k => k

/-- The kind of a base class once its schema is gone. -/
def rebased (fw : Framework) : Role → Kind → Kind
  | .props => withoutProps fw
  | .state => withArgument 1 (.simple fw.stateBase)

end Kind

namespace Component

/-- The nodes that a component loses with its schema. -/
def sheds (c : Component) (t : Tree) (initializers : List Initializer) : Role → List NodeId
  | .props => (t.parameterList? c.decl).toList ++ t.children c.base ++
      initializers.filterMap (·.propsParameter)
  | .state => initializers.map (·.function)

variable {t : Tree} {c : Component} {type : TypeExpr} {call : Bool}

theorem rewired_dropConstructor (ht : t.WellFormed) (rewrite : Kind → Kind) :
    t.Rewired rewrite [] (t.parameterList? c.decl).toList (c.dropConstructor.run t).2 := by
  have hget : (get : Draft Tree).run t = (t, t) := rfl
  have hrun : (c.dropConstructor.run t).2 =
      (t.parameterList? c.decl).toList.foldl Tree.detach t := by
    unfold dropConstructor
    rw [Draft.run_bind, hget]
    dsimp only
    cases t.parameterList? c.decl <;> rfl
  rw [hrun]
  exact .foldl_detach ht rewrite _

/-- Replacing an argument of the base class rewrites that class and nothing else. -/
theorem rewired_setArgument (t : Tree) (c : Component) (role : Role) (arg : TypeExpr) :
    t.Rewired (Kind.withArgument role.argumentIndex arg) [c.base] []
      ((c.setArgument role arg).run t).2 := by
  have hget : (get : Draft Tree).run t = (t, t) := rfl
  -- where nothing is replaced the kind is rewritten to itself
  have hsame (h : (t.kind c.base).withArgument role.argumentIndex arg = t.kind c.base) :
      t.Rewired (Kind.withArgument role.argumentIndex arg) [c.base] [] t :=
    .of_kind rfl rfl (fun m => by by_cases hm : m = c.base <;> simp [hm, h]) (by simp) (by simp)
  unfold setArgument
  rw [Draft.run_bind, hget]
  dsimp only
  cases hkind : t.kind c.base with
  | supertype type called =>
      dsimp only
      by_cases hlt : role.argumentIndex < type.args.length
      · have hset : type.setArg? role.argumentIndex arg =
            some { type with args := type.args.set role.argumentIndex arg } := by
          rw [TypeExpr.setArg?, if_pos hlt]
        rw [hset]
        refine .of_kind rfl (Tree.size_setKind ..) (fun m => ?_) (fun m => Tree.parent_setKind ..)
          (fun m => Tree.children_setKind ..)
        show (t.setKind c.base _).kind m = _
        have hbase : c.base < t.size := by
          refine Nat.lt_of_not_le fun hle => ?_
          cases (Tree.kind_of_le hle).symm.trans hkind
        rw [Tree.kind_setKind, hkind]
        by_cases hm : m = c.base <;> simp [hm, hbase, Kind.withArgument]
      · have hset : type.setArg? role.argumentIndex arg = none := by
          rw [TypeExpr.setArg?, if_neg hlt]
        rw [hset]
        refine hsame ?_
        rw [hkind, Kind.withArgument, List.set_eq_of_length_le (Nat.le_of_not_lt hlt)]
        cases type
        rfl
  | _ => exact hsame (by rw [hkind]; rfl)

/-- A call without arguments. -/
theorem rewired_callWith_nil (ht : t.WellFormed) {entry : NodeId}
    (hkind : t.kind entry = .supertype type call) (f : TypeExpr → TypeExpr)
    {rewrite : Kind → Kind} (hrewrite : rewrite (t.kind entry) = .supertype (f type) true) :
    t.Rewired rewrite [entry] (t.children entry)
      ((t.retypeSupertype entry f).callWith entry []) := by
  have hlt : entry < t.size := by
    refine Nat.lt_of_not_le fun hle => ?_
    cases (Tree.kind_of_le hle).symm.trans hkind
  generalize hw : (t.setKind entry (.supertype (f type) call)).setKind entry
    (.supertype (f type) true) = w
  have hkindW (m : NodeId) : w.kind m = if m = entry then rewrite (t.kind entry) else t.kind m := by
    rw [← hw, hrewrite, Tree.kind_setKind, Tree.kind_setKind, Tree.size_setKind]
    by_cases hm : m = entry <;> simp [hm, hlt]
  have hchildrenW (m : NodeId) : w.children m = t.children m := by simp [← hw]
  have hstep : t.Rewired rewrite [entry] [] w :=
    .of_kind (by rw [← hw]; rfl) (by simp [← hw]) hkindW (by simp [← hw]) hchildrenW
  have hrun : (t.retypeSupertype entry f).callWith entry [] =
      (t.children entry).foldl Tree.detach w := by
    have hretype : t.retypeSupertype entry f = t.setKind entry (.supertype (f type) call) := by
      rw [Tree.retypeSupertype, hkind]
    have hcall : (t.setKind entry (.supertype (f type) call)).makeCall entry = w := by
      rw [Tree.makeCall, Tree.kind_setKind, if_pos ⟨rfl, hlt⟩]
      exact hw
    rw [hretype, Tree.callWith, hcall, hchildrenW]
    rfl
  rw [hrun]
  exact hstep.trans (.foldl_detach (hstep.wellFormed ht) rewrite _) (by simp)

/-- Taking a schema from a component rewrites the base class and cuts off what the
component sheds. -/
theorem rewired_unwire (fw : Framework) (ht : t.WellFormed) (hattached : t.attached c.decl = true)
    (hkind : t.kind c.base = .supertype type call) (inits : List Initializer) (role : Role) :
    ∃ v, Change.run (c.unwire fw inits role) t = (.ok (), v) ∧
      t.Rewired (Kind.rebased fw role) [c.base] (c.sheds t inits role) v := by
  cases role with
  | props =>
      have hneed : Change.run (Change.needAttached c.decl) t = (.ok (), t) := by
        rw [Change.run_needAttached, hattached]
        rfl
      have hlist := rewired_dropConstructor (c := c) ht (Kind.rebased fw .props)
      generalize hu : (c.dropConstructor.run t).2 = u at hlist
      generalize hstate : (c.argument? t .state).getD (.simple fw.stateBase) = state
      have hdrop : Change.run (c.dropProps fw) t = (.ok (), (u.retypeSupertype c.base fun type =>
          .generic type.name [.simple fw.propsBase, state]).callWith c.base []) := by
        rw [← hu, ← hstate]
        exact (Change.run_bind_ok hneed _).trans rfl
      have hkindU : u.kind c.base = .supertype type call := by
        rw [hlist.kind_eq, if_neg List.not_mem_nil, hkind]
      have hrebased : Kind.rebased fw .props (u.kind c.base) =
          .supertype (.generic type.name [.simple fw.propsBase, state]) true := by
        rw [hkindU, ← hstate, argument?_of_kind hkind]
        rfl
      have hcalled := rewired_callWith_nil (hlist.wellFormed ht) hkindU
        (fun type => .generic type.name [.simple fw.propsBase, state]) hrebased
      generalize (u.retypeSupertype c.base fun type =>
        .generic type.name [.simple fw.propsBase, state]).callWith c.base [] = v at hdrop hcalled
      have hdropped := hlist.trans hcalled (by simp)
      refine ⟨_, (Change.run_bind_ok hdrop _).trans rfl,
        (hdropped.trans (.foldl_detach (hdropped.wellFormed ht) _ _) (by simp)).congr (by simp) ?_⟩
      -- the children of the base class are all cut off, one of them twice if it is the list
      intro n
      simp only [sheds, hlist.children_eq, List.mem_append, List.mem_filter, decide_eq_true_eq]
      tauto
  | state =>
      have hstep := rewired_setArgument t c .state (.simple fw.stateBase)
      generalize hu : ((c.setArgument .state (.simple fw.stateBase)).run t).2 = u at hstep
      have hrun : Change.run (c.unwire fw inits .state) t =
          (.ok (), (inits.map (·.function)).foldl Tree.detach u) := by
        rw [← hu]
        rfl
      exact ⟨_, hrun, hstep.trans (.foldl_detach (hstep.wellFormed ht) _ _) (by simp)⟩

end Component

/-! ## All users -/

namespace Component

/-- A component of the file with initialisers of its own. -/
structure Holds (c : Component) (t : Tree) (initializers : List Initializer) : Prop where
  declared : c.Declared t
  supertype : ∃ type called, t.kind c.base = .supertype type called
  inside : ∀ i ∈ initializers, t.Inside i.function c.decl ∧
    ∀ p, i.propsParameter = some p → t.Inside p c.decl

theorem holds_initializers {s : Source} {c : Component} (hs : s.tree.WellFormed)
    (hc : c ∈ all s.tree s.framework) : c.Holds s.tree (c.initializers s) where
  declared := declared_of_mem_all hc
  supertype := kind_base (ofClass?_of_mem_all hc)
  inside := fun _ hi => inside_of_mem_initializers hs rfl hi

namespace Holds

variable {t u : Tree} {c : Component} {inits : List Initializer} (h : c.Holds t inits)
  (ht : t.WellFormed)

include h ht

theorem inside_base : t.Inside c.base c.decl := ht.inside_of_child h.declared.mem_base

/-- What a component loses lies inside its class. -/
theorem inside_sheds {role : Role} {n : NodeId} (hn : n ∈ c.sheds t inits role) :
    t.Inside n c.decl := by
  cases role with
  | props =>
      rcases List.mem_append.mp hn with hn | hn
      · rcases List.mem_append.mp hn with hn | hn
        · obtain ⟨-, hfind⟩ := Option.ite_none_right_eq_some.mp (Option.mem_toList.mp hn)
          exact ht.inside_of_child (List.mem_of_find?_eq_some hfind)
        · exact .trans (ht.inside_of_child hn) (h.inside_base ht)
      · obtain ⟨i, hi, hp⟩ := List.mem_filterMap.mp hn
        exact (h.inside i hi).2 n hp
  | state =>
      obtain ⟨i, hi, rfl⟩ := List.mem_map.mp hn
      exact (h.inside i hi).1

/-- A component of the file whose class is left alone loses the same as before. -/
theorem sheds_eq (hsame : t.SameBelow u c.decl) (role : Role) :
    c.sheds u inits role = c.sheds t inits role := by
  cases role with
  | props =>
      rw [sheds, sheds, hsame.parameterList?_eq ht,
        (hsame.child ht h.declared.mem_base).children_eq]
  | state => rfl

theorem of_sameBelow (hu : u.WellFormed) (hsame : t.SameBelow u c.decl)
    (hmem : c.decl ∈ u.declarations) : c.Holds u inits where
  declared := {
    mem_declarations := hmem
    isClass := hsame.kind_eq ▸ h.declared.isClass
    mem_base := hsame.children_eq ▸ h.declared.mem_base }
  supertype := by
    rw [hsame.kind_child ht h.declared.mem_base]
    exact h.supertype
  inside := by
    have hinside {n : NodeId} (hn : t.Inside n c.decl) : u.Inside n c.decl := by
      have hunder := (hsame.symm ht hu).under_of_under hu ht hn.under
      rcases Tree.under_iff_eq_or_inside.mp hunder with heq | hin
      · exact absurd (heq ▸ hn) (ht.acyclic _)
      · exact hin
    intro i hi
    exact ⟨hinside (h.inside i hi).1, fun p hp => hinside ((h.inside i hi).2 p hp)⟩

end Holds

end Component

/-- **Taking a schema from some components of the file**, one after the other, rewrites their base
classes and cuts off what each of them would have shed at the beginning. -/
theorem rewired_unwireAll (fw : Framework) (role : Role) {t : Tree} (ht : t.WellFormed)
    {users : List (Component × List Initializer)} (husers : ∀ x ∈ users, x.1.Holds t x.2)
    (hnodup : (users.map (·.1.decl)).Nodup) :
    ∃ v, Change.run (unwireAll fw role users) t = (.ok (), v) ∧
      t.Rewired (Kind.rebased fw role) (users.map (·.1.base))
        (users.flatMap fun x => x.1.sheds t x.2 role) v := by
  induction users generalizing t with
  | nil => exact ⟨t, rfl, .refl t _⟩
  | cons x users ih =>
      have hx := husers x List.mem_cons_self
      have hparent {y : Component × List Initializer} (hy : y ∈ x :: users) :
          t.parent y.1.decl = some t.root := (husers y hy).declared.parent_decl ht
      obtain ⟨hfirst, hrest⟩ := List.nodup_cons.mp hnodup
      obtain ⟨type, called, hkind⟩ := hx.supertype
      have hattached := Tree.attached_declaration ht hx.declared.mem_declarations
      obtain ⟨v, hrun, hv⟩ := Component.rewired_unwire fw ht hattached hkind x.2 role
      -- what happens inside one class is seen in no other one
      have hother {y : Component × List Initializer} (hy : y ∈ users) {n : NodeId}
          (hn : t.Inside n x.1.decl) : ¬ t.Under n y.1.decl := by
        intro hunder
        have heq := ht.eq_of_under_siblings (hparent List.mem_cons_self)
          (hparent (List.mem_cons_of_mem x hy)) hn.under hunder
        exact hfirst (List.mem_map.mpr ⟨y, hy, heq.symm⟩)
      have hsame {y : Component × List Initializer} (hy : y ∈ users) :
          t.SameBelow v y.1.decl := by
        refine hv.sameBelow ht (fun n hn => ?_) fun n hn => hother hy (hx.inside_sheds ht hn)
        rw [List.mem_singleton.mp hn]
        exact hother hy (hx.inside_base ht)
      have hvt := hv.wellFormed ht
      have hdeclared {y : Component × List Initializer} (hy : y ∈ users) :
          y.1.decl ∈ v.declarations := by
        have hmem := (husers y (List.mem_cons_of_mem x hy)).declared.mem_declarations
        obtain ⟨hchild, htrivia⟩ := List.mem_filter.mp hmem
        refine List.mem_filter.mpr ⟨?_, (hsame hy).kind_eq ▸ htrivia⟩
        rw [hv.root_eq, hv.children_eq, List.mem_filter]
        exact ⟨hchild, by simpa using fun hn => hother hy (hx.inside_sheds ht hn) .refl⟩
      obtain ⟨w, hrun', hw⟩ := ih hvt (fun y hy =>
        (husers y (List.mem_cons_of_mem x hy)).of_sameBelow ht hvt (hsame hy) (hdeclared hy)) hrest
      refine ⟨w, (Change.run_bind_ok hrun _).trans hrun', ?_⟩
      have hsheds : (users.flatMap fun y => y.1.sheds v y.2 role) =
          users.flatMap fun y => y.1.sheds t y.2 role := by
        refine List.flatMap_congr fun y hy => ?_
        exact (husers y (List.mem_cons_of_mem x hy)).sheds_eq ht (hsame hy) role
      rw [hsheds] at hw
      refine hv.trans hw fun n hn => ?_
      obtain ⟨y, hy, rfl⟩ := List.mem_map.mp hn
      have hy' := husers y (List.mem_cons_of_mem x hy)
      intro hmem
      rw [List.mem_singleton] at hmem
      exact hother hy (hmem ▸ hx.inside_base ht) (hy'.inside_base ht).under

end ComponentAudit
