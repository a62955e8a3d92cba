import ComponentAudit.Proofs.Audit.Distinct
import ComponentAudit.Proofs.Edit.Unwired
import ComponentAudit.Proofs.Source.Scopes

set_option autoImplicit false

/-! # Removing a schema

Once a schema is removed, its users have the framework's base type in its place. Without props they
have no constructor, call their base class without arguments, and initialise their state without
props; without state they have nothing to initialise. The other components stay as they are.

Main statement: `Schema.remove_rewires_users`.
-/

namespace ComponentAudit

/-! ## What becomes of a user -/

theorem Tree.mem_members_of_class {t : Tree} {d m : NodeId} (hd : (t.kind d).isClass = true) :
    m ∈ t.members d ↔ m ∈ t.children d ∧ (t.kind m).isTrivia = false ∧
      t.kind m ≠ .parameterList ∧ (t.kind m).isSupertype = false := by
  have hinterface : (t.kind d).isInterface = false := by
    cases hk : t.kind d <;> simp_all [Kind.isClass, Kind.isInterface]
  simp [members, hinterface, hd, significant]
  tauto

namespace Component

/-- What makes a member a state initialiser. -/
theorem initializer?_eq_some_iff {c : Component} {s : Source} {m : NodeId} {i : Initializer} :
    c.initializer? s m = some i ↔ i.component = c ∧ i.function = m ∧
      (s.tree.kind m).receiver?.isSome = true ∧
      s.tree.name? m = some s.framework.stateInitFunction ∧
      s.tree.parameters m = i.propsParameter.toList ∧
      ∀ p, i.propsParameter = some p → c.argument? s.tree .props = none ∨
        s.tree.writtenType? p = c.argument? s.tree .props := by
  obtain ⟨component, function, parameter⟩ := i
  unfold initializer?
  by_cases hreceiver : (s.tree.kind m).receiver?.isSome = true <;>
    by_cases hname : s.tree.name? m = some s.framework.stateInitFunction <;>
    simp [hreceiver, hname]
  match hparameters : s.tree.parameters m with
  | [] => cases parameter <;> simp [eq_comm]
  | [p] =>
      by_cases hp : c.argument? s.tree .props = none ∨
          s.tree.writtenType? p = c.argument? s.tree .props
      · cases parameter <;> simp [hp]
        grind
      · cases parameter <;> simp [hp]
        grind
  | p :: q :: rest => cases parameter <;> simp

theorem mem_initializers_iff {c : Component} {s : Source} {i : Initializer} :
    i ∈ c.initializers s ↔
      i.function ∈ s.tree.members c.decl ∧ c.initializer? s i.function = some i := by
  constructor
  · intro hi
    obtain ⟨m, hm, hof⟩ := List.mem_filterMap.mp hi
    obtain rfl := (initializer?_eq_some_iff.mp hof).2.1
    exact ⟨hm, hof⟩
  · rintro ⟨hm, hof⟩
    exact List.mem_filterMap.mpr ⟨i.function, hm, hof⟩

/-- What is shed with the props: the constructor, an argument of the base class, or a parameter of
an initialiser. -/
theorem mem_sheds_props {c : Component} {s : Source} (hs : s.tree.WellFormed) {n : NodeId}
    (hn : n ∈ c.sheds s.tree (c.initializers s) .props) :
    (s.tree.parent n = some c.decl ∧ s.tree.kind n = .parameterList) ∨
      s.tree.parent n = some c.base ∨
      ∃ list, s.tree.parent n = some list ∧ s.tree.kind list = .parameterList ∧
        (s.tree.kind n).isParameter = true := by
  rcases List.mem_append.mp hn with hn | hn
  · rcases List.mem_append.mp hn with hn | hn
    · obtain ⟨-, hfind⟩ := Option.ite_none_right_eq_some.mp (Option.mem_toList.mp hn)
      exact .inl ⟨hs.mem_children_iff.mp (List.mem_of_find?_eq_some hfind),
        by simpa using List.find?_some hfind⟩
    · exact .inr (.inl (hs.mem_children_iff.mp hn))
  · obtain ⟨i, hi, hp⟩ := List.mem_filterMap.mp hn
    obtain ⟨-, -, -, -, hparameters, -⟩ :=
      initializer?_eq_some_iff.mp (mem_initializers_iff.mp hi).2
    have hmem : n ∈ s.tree.parameters i.function := by simp [hparameters, hp]
    obtain ⟨list, hparent, hlist, -⟩ := hs.parent_of_parameter hmem
    exact .inr (.inr ⟨list, hparent, hlist, Source.isParameter_of_mem hmem⟩)

/-- No supertype of the class is shed. -/
theorem isSupertype_of_mem_sheds {c : Component} {s : Source} (hs : s.tree.WellFormed)
    (hc : c.Holds s.tree (c.initializers s)) {role : Role} {n : NodeId}
    (hn : n ∈ c.sheds s.tree (c.initializers s) role) (hparent : s.tree.parent n = some c.decl) :
    (s.tree.kind n).isSupertype = false := by
  cases role with
  | props =>
      rcases mem_sheds_props hs hn with ⟨-, hk⟩ | hp | ⟨list, -, -, hk⟩
      · rw [hk]
        rfl
      · have hbase := hs.mem_children_iff.mp hc.declared.mem_base
        rw [Option.some.inj (hp.symm.trans hparent)] at hbase
        exact absurd (.single hbase) (hs.acyclic _)
      · cases hk' : s.tree.kind n <;> simp_all [Kind.isParameter, Kind.isSupertype]
  | state =>
      obtain ⟨i, hi, rfl⟩ := List.mem_map.mp hn
      obtain ⟨-, -, hreceiver, -⟩ := initializer?_eq_some_iff.mp (mem_initializers_iff.mp hi).2
      cases hk : s.tree.kind i.function <;> simp_all [Kind.receiver?, Kind.isSupertype]

/-- Whether a tree shows the class of a component as it is without its schema. -/
structure Stripped (c : Component) (s : Source) (role : Role) (u : Tree) : Prop where
  kind_base : u.kind c.base = (s.tree.kind c.base).rebased s.framework role
  kind_eq : ∀ n, s.tree.Under n c.decl → n ≠ c.base → u.kind n = s.tree.kind n
  parent_eq : ∀ n ∈ c.sheds s.tree (c.initializers s) role, u.parent n = none
  children_eq : ∀ n, s.tree.Under n c.decl → u.children n =
    (s.tree.children n).filter (· ∉ c.sheds s.tree (c.initializers s) role)

namespace Stripped

variable {c : Component} {s : Source} {role : Role} {u : Tree} (h : c.Stripped s role u)
  (hs : s.tree.WellFormed)

include h hs

theorem kind_child {n : NodeId} (hn : n ∈ s.tree.children c.decl) (hne : n ≠ c.base) :
    u.kind n = s.tree.kind n :=
  h.kind_eq n (hs.inside_of_child hn).under hne

variable (hc : c.Holds s.tree (c.initializers s))

include hc

theorem kind_decl : u.kind c.decl = s.tree.kind c.decl := by
  refine h.kind_eq _ .refl fun heq => ?_
  have hinside := hc.inside_base hs
  rw [← heq] at hinside
  exact hs.acyclic _ hinside

omit hs in
theorem isSupertype_base :
    (s.tree.kind c.base).isSupertype = true ∧ (u.kind c.base).isSupertype = true := by
  obtain ⟨type, called, hkind⟩ := hc.supertype
  rw [h.kind_base, hkind]
  cases role <;> exact ⟨rfl, rfl⟩

/-- The class keeps the members that it does not shed. -/
theorem mem_members_iff {m : NodeId} : m ∈ u.members c.decl ↔
    m ∈ s.tree.members c.decl ∧ m ∉ c.sheds s.tree (c.initializers s) role := by
  have hclass := hc.declared.isClass
  rw [Tree.mem_members_of_class (h.kind_decl hs hc ▸ hclass), Tree.mem_members_of_class hclass,
    h.children_eq _ .refl, List.mem_filter, decide_eq_true_eq]
  by_cases hbase : m = c.base
  · obtain ⟨hbefore, hafter⟩ := h.isSupertype_base hc
    simp [hbase, hbefore, hafter]
  · constructor
    · rintro ⟨⟨hmem, hnot⟩, hkind⟩
      rw [h.kind_child hs hmem hbase] at hkind
      exact ⟨⟨hmem, hkind⟩, hnot⟩
    · rintro ⟨⟨hmem, hkind⟩, hnot⟩
      rw [h.kind_child hs hmem hbase]
      exact ⟨⟨hmem, hnot⟩, hkind⟩

/-- The class is the component that it was. -/
theorem ofClass?_eq (hclass : ofClass? s.tree s.framework c.decl = some c) :
    ofClass? u s.framework c.decl = some c := by
  have hsupertypes : u.supertypes c.decl = s.tree.supertypes c.decl := by
    rw [Tree.supertypes, Tree.supertypes, h.children_eq _ .refl, List.filter_filter]
    refine List.filter_congr fun n hn => ?_
    by_cases hbase : n = c.base
    · obtain ⟨hbefore, hafter⟩ := h.isSupertype_base hc
      have hkept : c.base ∉ c.sheds s.tree (c.initializers s) role := fun hshed => by
        simpa [hbefore] using isSupertype_of_mem_sheds hs hc hshed
          (hs.mem_children_iff.mp hc.declared.mem_base)
      simp [hbase, hbefore, hafter, hkept]
    · rw [h.kind_child hs hn hbase]
      by_cases hshed : n ∈ c.sheds s.tree (c.initializers s) role
      · simp [isSupertype_of_mem_sheds hs hc hshed (hs.mem_children_iff.mp hn)]
      · simp [hshed]
  rw [← hclass]
  refine ofClass?_congr (by rw [h.kind_decl hs hc]) hsupertypes fun n hn => ?_
  by_cases hbase : n = c.base
  · obtain ⟨type, called, hkind⟩ := hc.supertype
    rw [hbase, Tree.supertype?, Tree.supertype?, h.kind_base, hkind]
    cases role <;> rfl
  · rw [Tree.supertype?, Tree.supertype?, h.kind_child hs (List.mem_filter.mp hn).1 hbase]

/-- A member that takes no part in the change is the same throughout. -/
theorem sameBelow_member {m : NodeId} (hm : m ∈ s.tree.members c.decl)
    (hsheds : ∀ n ∈ c.sheds s.tree (c.initializers s) role, ¬ s.tree.Under n m) :
    s.tree.SameBelow u m := by
  have hclass := hc.declared.isClass
  obtain ⟨hmem, -, -, hnot⟩ := (Tree.mem_members_of_class hclass).mp hm
  intro y hy
  have hunder : s.tree.Under y c.decl := hy.trans (hs.inside_of_child hmem).under
  constructor
  · refine h.kind_eq y hunder fun hbase => ?_
    have heq := hs.eq_of_under_siblings (hs.mem_children_iff.mp hc.declared.mem_base)
      (hs.mem_children_iff.mp hmem) .refl (hbase ▸ hy)
    rw [← heq, (h.isSupertype_base hc).1] at hnot
    cases hnot
  · rw [h.children_eq y hunder, List.filter_eq_self]
    intro n hn
    have hbelow : s.tree.Under n m := .head (hs.mem_children_iff.mp hn) hy
    simpa using fun hshed => hsheds n hshed hbelow

end Stripped

/-! ### Without state -/

/-- How a component is left when its state is removed. -/
structure WithoutState (c : Component) (s s' : Source) : Prop where
  component_eq : ofClass? s'.tree s'.framework c.decl = some c
  state_eq : c.argument? s'.tree .state = some (.simple s.framework.stateBase)
  props_eq : c.argument? s'.tree .props = c.argument? s.tree .props
  initializers_eq : c.initializers s' = []

theorem Stripped.withoutState {c : Component} {s : Source} {u : Tree} (h : c.Stripped s .state u)
    (hs : s.tree.WellFormed) (hc : c.Holds s.tree (c.initializers s))
    (hclass : ofClass? s.tree s.framework c.decl = some c)
    (hstate : (c.argument? s.tree .state).isSome = true) :
    c.WithoutState s { s with tree := u } := by
  obtain ⟨type, called, hkind⟩ := hc.supertype
  have hkindU : u.kind c.base = .supertype
      { type with args := type.args.set 1 (.simple s.framework.stateBase) } called := by
    rw [h.kind_base, hkind]
    rfl
  have hlength : 1 < type.args.length := by
    simpa [argument?_of_kind hkind, Role.argumentIndex] using hstate
  have hprops : c.argument? u .props = c.argument? s.tree .props := by
    simp [argument?_of_kind hkindU, argument?_of_kind hkind, Role.argumentIndex]
  refine ⟨h.ofClass?_eq hs hc hclass, ?_, hprops, ?_⟩
  · simp [argument?_of_kind hkindU, Role.argumentIndex, hlength]
  -- a member that is still an initialiser was one before, so it has been shed
  refine List.eq_nil_iff_forall_not_mem.mpr fun i hi => ?_
  obtain ⟨hmember, hof⟩ := mem_initializers_iff.mp hi
  obtain ⟨hm, hkept⟩ := (h.mem_members_iff hs hc).mp hmember
  have hsame : s.tree.SameBelow u i.function := by
    refine h.sameBelow_member hs hc hm fun n hn hunder => ?_
    obtain ⟨j, hj, rfl⟩ := List.mem_map.mp hn
    obtain ⟨hmj, -⟩ := mem_initializers_iff.mp hj
    have heq := hs.eq_of_under_siblings (hs.parent_of_member hmj).1 (hs.parent_of_member hm).1
      .refl hunder
    exact hkept (heq ▸ hn)
  refine hkept (List.mem_map.mpr ⟨i, mem_initializers_iff.mpr ⟨hm, ?_⟩, rfl⟩)
  obtain ⟨hcomponent, -, hreceiver, hname, hparameters, htypes⟩ := initializer?_eq_some_iff.mp hof
  dsimp only at hreceiver hname hparameters htypes
  rw [hsame.kind_eq] at hreceiver
  rw [hsame.name?_eq] at hname
  rw [hsame.parameters_eq hs] at hparameters
  refine initializer?_eq_some_iff.mpr
    ⟨hcomponent, rfl, hreceiver, hname, hparameters, fun p hp => ?_⟩
  have hmem : p ∈ s.tree.parameters i.function := by simp [hparameters, hp]
  have hunder := (hs.inside_of_parameter hmem).under
  have hsameP := hsame.of_under hunder
  have hwritten : u.writtenType? p = s.tree.writtenType? p :=
    Tree.writtenType?_congr hsameP.children_eq fun n hn => hsameP.kind_child hs hn
  rw [← hwritten, ← hprops]
  exact htypes p hp

/-! ### Without props -/

/-- How a component is left when its props are removed. -/
structure WithoutProps (c : Component) (s s' : Source) : Prop where
  component_eq : ofClass? s'.tree s'.framework c.decl = some c
  props_eq : c.argument? s'.tree .props = some (.simple s.framework.propsBase)
  state_eq : c.argument? s'.tree .state =
    some ((c.argument? s.tree .state).getD (.simple s.framework.stateBase))
  detached : ∀ list, s.tree.parameterList? c.decl = some list → s'.tree.attached list = false
  called : ∃ type, s'.tree.kind c.base = .supertype type true
  arguments_eq : s'.tree.children c.base = []
  initializes : ∀ i ∈ c.initializers s, { i with propsParameter := none } ∈ c.initializers s'

section

variable {c : Component} {s : Source} {u : Tree} (hs : s.tree.WellFormed)
  (hc : c.Holds s.tree (c.initializers s)) {i : Initializer} (hi : i ∈ c.initializers s)

include hi in
theorem isFunction_initializer : (s.tree.kind i.function).isFunction = true := by
  obtain ⟨-, -, hreceiver, -⟩ := initializer?_eq_some_iff.mp (mem_initializers_iff.mp hi).2
  cases hk : s.tree.kind i.function <;> simp_all [Kind.receiver?, Kind.isFunction]

include hc hi in
theorem initializer_ne_base : i.function ≠ c.base := by
  obtain ⟨type, called, hbase⟩ := hc.supertype
  have hfunction := isFunction_initializer hi
  intro heq
  rw [heq, hbase] at hfunction
  cases hfunction

include hs hc hi

/-- Neither an initialiser nor what hangs right below it is shed with the props. -/
theorem not_mem_sheds_initializer : i.function ∉ c.sheds s.tree (c.initializers s) .props ∧
    ∀ n ∈ s.tree.children i.function, n ∉ c.sheds s.tree (c.initializers s) .props := by
  have hparent := (hs.parent_of_member (mem_initializers_iff.mp hi).1).1
  have hparentBase := hs.mem_children_iff.mp hc.declared.mem_base
  have hfunction := isFunction_initializer hi
  constructor
  · intro hshed
    rcases mem_sheds_props hs hshed with ⟨-, hk⟩ | hp | ⟨list, -, -, hk⟩
    · simp [hk, Kind.isFunction] at hfunction
    · rw [Option.some.inj (hp.symm.trans hparent)] at hparentBase
      exact hs.acyclic _ (.single hparentBase)
    · cases hk' : s.tree.kind i.function <;> simp_all [Kind.isParameter, Kind.isFunction]
  · intro n hn hshed
    have hparentN := hs.mem_children_iff.mp hn
    rcases mem_sheds_props hs hshed with ⟨hp, -⟩ | hp | ⟨list, hp, hlist, -⟩
    · rw [Option.some.inj (hparentN.symm.trans hp)] at hparent
      exact hs.acyclic _ (.single hparent)
    · exact initializer_ne_base hc hi (Option.some.inj (hparentN.symm.trans hp))
    · rw [Option.some.inj (hparentN.symm.trans hp), hlist] at hfunction
      cases hfunction

variable (h : c.Stripped s .props u)

include h

/-- An initialiser keeps its parameter list. -/
theorem Stripped.parameterList?_initializer :
    u.parameterList? i.function = s.tree.parameterList? i.function := by
  have hparent := (hs.parent_of_member (mem_initializers_iff.mp hi).1).1
  have hinside : s.tree.Inside i.function c.decl := .single hparent
  have hchildren : u.children i.function = s.tree.children i.function := by
    rw [h.children_eq _ hinside.under, List.filter_eq_self]
    simpa using (not_mem_sheds_initializer hs hc hi).2
  rw [Tree.parameterList?, h.kind_eq _ hinside.under (initializer_ne_base hc hi),
    Tree.parameterList?, Tree.child?, Tree.child?, hchildren]
  congr 1
  refine List.find?_congr fun n hn => ?_
  have hparentN := hs.mem_children_iff.mp hn
  rw [h.kind_eq n (.head hparentN hinside.under)]
  -- the base class hangs below the class, and not below one of its members
  rintro rfl
  have hparentBase := hs.mem_children_iff.mp hc.declared.mem_base
  rw [Option.some.inj (hparentN.symm.trans hparentBase)] at hparent
  exact hs.acyclic _ (.single hparent)

/-- An initialiser stays in the class, and it takes nothing any more. -/
theorem Stripped.parameters_initializer :
    i.function ∈ u.members c.decl ∧ u.kind i.function = s.tree.kind i.function ∧
      u.parameters i.function = [] := by
  obtain ⟨hm, hof⟩ := mem_initializers_iff.mp hi
  obtain ⟨-, -, -, -, hparameters, -⟩ := initializer?_eq_some_iff.mp hof
  have hunder : s.tree.Under i.function c.decl := .single (hs.parent_of_member hm).1
  refine ⟨(h.mem_members_iff hs hc).mpr ⟨hm, (not_mem_sheds_initializer hs hc hi).1⟩,
    h.kind_eq _ hunder (initializer_ne_base hc hi), ?_⟩
  rw [Tree.parameters, h.parameterList?_initializer hs hc hi]
  cases hfound : s.tree.parameterList? i.function with
  | none => rfl
  | some list =>
      obtain ⟨-, hfind⟩ := Option.ite_none_right_eq_some.mp hfound
      have hparentList := hs.mem_children_iff.mp (List.mem_of_find?_eq_some hfind)
      have hunderList : s.tree.Under list c.decl := .head hparentList hunder
      refine List.filter_eq_nil_iff.mpr fun n hn hparameter => ?_
      rw [h.children_eq _ hunderList, List.mem_filter, decide_eq_true_eq] at hn
      have hparentN := hs.mem_children_iff.mp hn.1
      rw [h.kind_eq n (.head hparentN hunderList)] at hparameter
      · have hmem : n ∈ s.tree.parameters i.function := by
          rw [Tree.parameters, hfound]
          exact List.mem_filter.mpr ⟨hn.1, hparameter⟩
        rw [hparameters, Option.mem_toList] at hmem
        exact hn.2 (List.mem_append_right _ (List.mem_filterMap.mpr ⟨i, hi, hmem⟩))
      · rintro rfl
        have hparentBase := hs.mem_children_iff.mp hc.declared.mem_base
        have hclass := hc.declared.isClass
        have hkindList : s.tree.kind list = .parameterList := by simpa using List.find?_some hfind
        rw [← Option.some.inj (hparentN.symm.trans hparentBase), hkindList] at hclass
        cases hclass

end

theorem Stripped.withoutProps {c : Component} {s : Source} {u : Tree} (h : c.Stripped s .props u)
    (hs : s.tree.WellFormed) (hc : c.Holds s.tree (c.initializers s))
    (hclass : ofClass? s.tree s.framework c.decl = some c)
    (hu : u.WellFormed) (hroot : u.root = s.tree.root) :
    c.WithoutProps s { s with tree := u } := by
  obtain ⟨type, called, hkind⟩ := hc.supertype
  have hkindU : u.kind c.base = .supertype (.generic type.name [.simple s.framework.propsBase,
      type.args[1]?.getD (.simple s.framework.stateBase)]) true := by
    rw [h.kind_base, hkind]
    rfl
  refine ⟨h.ofClass?_eq hs hc hclass, ?_, ?_, ?_, ⟨_, hkindU⟩, ?_, ?_⟩
  · exact argument?_of_kind hkindU .props
  · rw [argument?_of_kind hkind]
    exact argument?_of_kind hkindU .state
  · intro list hlist
    have hshed : list ∈ c.sheds s.tree (c.initializers s) .props := by simp [sheds, hlist]
    have hinside : s.tree.Inside list s.tree.root := .trans_left (hc.inside_sheds hs hshed)
      (hs.attached_iff.mp (Tree.attached_declaration hs hc.declared.mem_declarations))
    refine hu.not_attached (h.parent_eq list hshed) fun heq => ?_
    rw [heq, hroot] at hinside
    exact hs.acyclic _ hinside
  · show u.children c.base = []
    rw [h.children_eq _ (hc.inside_base hs).under]
    refine List.filter_eq_nil_iff.mpr fun n hn => ?_
    simp [sheds, hn]
  · intro i hi
    obtain ⟨hmember, hkindI, hparameters⟩ := h.parameters_initializer hs hc hi
    obtain ⟨hcomponent, -, hreceiver, hname, -⟩ :=
      initializer?_eq_some_iff.mp (mem_initializers_iff.mp hi).2
    refine mem_initializers_iff.mpr ⟨hmember, initializer?_eq_some_iff.mpr
      ⟨hcomponent, rfl, ?_, ?_, hparameters, by simp⟩⟩
    · rw [hkindI]
      exact hreceiver
    · rw [Tree.name?, hkindI]
      exact hname

end Component

/-! ## The whole removal -/

theorem Component.eq_of_under {t : Tree} {fw : Framework} (ht : t.WellFormed) {c c' : Component}
    (hc : c ∈ all t fw) (hc' : c' ∈ all t fw) {n : NodeId} (hn : t.Under n c.decl)
    (hn' : t.Under n c'.decl) : c = c' := by
  have hdecl := ht.eq_of_under_siblings ((declared_of_mem_all hc).parent_decl ht)
    ((declared_of_mem_all hc').parent_decl ht) hn hn'
  have hof := ofClass?_of_mem_all hc
  rw [hdecl, ofClass?_of_mem_all hc'] at hof
  exact (Option.some.inj hof).symm

namespace Schema

variable {i : Schema} {t u : Tree} {fw : Framework} {n : Nat}

theorem users_eq (i : Schema) (s : Source) : i.users s =
    ((Component.all s.tree s.framework).filter fun c => c.schema? s i.role = some i).map
      fun c => (c, c.initializers s) := by
  unfold users
  congr 1
  refine List.filter_congr fun c _ => ?_
  rw [Bool.eq_iff_iff, decide_eq_true_eq]
  cases hfound : c.schema? s i.role with
  | none => simp
  | some j =>
      have hrole := Component.role_of_schema? hfound
      cases i
      cases j
      simp_all

/-- What the removal of a schema changes, all told. -/
theorem rewired_remove (ht : t.WellFormed) (h : Change.run (i.remove fw) t = (.ok n, u))
    {users : List Component} (husers : (Component.all t fw).filter
      (fun c => c.schema? { tree := t, framework := fw } i.role = some i) = users) :
    n = users.length ∧ t.Rewired (Kind.rebased fw i.role) (users.map (·.base))
      (users.flatMap (fun c => c.sheds t (c.initializers { tree := t, framework := fw }) i.role) ++
        [i.decl]) u := by
  have hattached : t.attached i.decl = true := by
    by_contra hdetached
    have hneed : Change.run (Change.needAttached i.decl) t =
        (.error (.detachedNode i.decl), t) := by
      rw [Change.run_needAttached, if_neg hdetached]
    cases (Change.run_bind_error hneed _).symm.trans h
  have hneed : Change.run (Change.needAttached i.decl) t = (.ok (), t) := by
    rw [Change.run_needAttached, if_pos hattached]
  have hall : ∀ c ∈ users, c ∈ Component.all t fw := by
    intro c hc
    rw [← husers] at hc
    exact (List.mem_filter.mp hc).1
  have hdecls : ((Component.all t fw).map (·.decl)).Sublist t.declarations :=
    sublist_filterMap _ fun _ _ hof => Component.decl_of_ofClass? hof
  have hnodup : (users.map (·.decl)).Nodup := by
    rw [← husers]
    exact ((List.filter_sublist.map _).trans (hdecls.trans List.filter_sublist)).nodup
      (ht.nodup_children t.root)
  have hpairs := users_eq i { tree := t, framework := fw }
  rw [husers] at hpairs
  have hholds : ∀ x ∈ i.users { tree := t, framework := fw }, x.1.Holds t x.2 := by
    intro x hx
    rw [hpairs] at hx
    obtain ⟨c, hc, rfl⟩ := List.mem_map.mp hx
    exact Component.holds_initializers (s := { tree := t, framework := fw }) ht (hall c hc)
  obtain ⟨v, hrun, hv⟩ := rewired_unwireAll fw i.role ht hholds
    (by simpa [hpairs, Function.comp_def] using hnodup)
  have hremove : Change.run (i.remove fw) t = (.ok users.length, v.detach i.decl) := by
    unfold remove
    rw [Change.run_bind_ok hneed, Change.run_bind_ok (Change.run_source fw),
      Change.run_bind_ok hrun, hpairs]
    simp
    rfl
  obtain ⟨rfl, rfl⟩ : n = users.length ∧ u = v.detach i.decl := by
    simpa using h.symm.trans hremove
  refine ⟨rfl, ?_⟩
  have hwhole := hv.trans (.foldl_detach (hv.wellFormed ht) _ [i.decl]) (by simp)
  simpa [hpairs, List.flatMap_map, Function.comp_def] using hwhole

end Schema

/-! ## Users and others -/

namespace Component

/-- How a component is left without its schema. -/
def Unwired (c : Component) (s s' : Source) : Role → Prop
  | .props => c.WithoutProps s s'
  | .state => c.WithoutState s s'

end Component

namespace Schema

variable {i : Schema} {t u : Tree} {fw : Framework} {n : Nat}

/-- A schema does not lie inside the class of a component that uses it. -/
theorem not_under_of_schema? {s : Source} (hs : s.tree.WellFormed) {c : Component}
    (hc : c ∈ Component.all s.tree s.framework) {role : Role} (h : c.schema? s role = some i) :
    ¬ s.tree.Under i.decl c.decl := by
  intro hunder
  obtain ⟨hmem, hinterface⟩ := Component.schema?_spec h
  have hdeclared := Component.declared_of_mem_all hc
  have hparent := hs.mem_children_iff.mp (Tree.mem_children_of_significant hmem)
  have heq := hs.eq_of_under_siblings hparent (hdeclared.parent_decl hs) .refl hunder
  have hclass := hdeclared.isClass
  rw [← heq] at hclass
  cases hk : s.tree.kind i.decl <;> simp_all [Kind.isInterface, Kind.isClass]

section

variable (ht : t.WellFormed) {users : List Component} (husers : ∀ c ∈ users, c ∈ Component.all t fw)
  {c : Component} (hc : c ∈ Component.all t fw) {x : NodeId} (hx : t.Under x c.decl)

include ht husers hc hx

/-- In the class of a component, only a base class of its own is rewritten. -/
theorem mem_bases_iff : x ∈ users.map (·.base) ↔ c ∈ users ∧ x = c.base := by
  constructor
  · intro hmem
    obtain ⟨d, hd, rfl⟩ := List.mem_map.mp hmem
    have hinside : t.Inside d.base d.decl :=
      ht.inside_of_child (Component.declared_of_mem_all (husers d hd)).mem_base
    obtain rfl := Component.eq_of_under ht hc (husers d hd) hx hinside.under
    exact ⟨hd, rfl⟩
  · rintro ⟨hmem, rfl⟩
    exact List.mem_map_of_mem hmem

/-- In the class of a component, only what it sheds itself is cut off. -/
theorem mem_sheds_iff (role : Role) : x ∈ users.flatMap (fun c =>
      c.sheds t (c.initializers { tree := t, framework := fw }) role) ↔
    c ∈ users ∧ x ∈ c.sheds t (c.initializers { tree := t, framework := fw }) role := by
  constructor
  · intro hmem
    obtain ⟨d, hd, hshed⟩ := List.mem_flatMap.mp hmem
    have hholds := Component.holds_initializers (s := { tree := t, framework := fw }) ht
      (husers d hd)
    obtain rfl :=
      Component.eq_of_under ht hc (husers d hd) hx (hholds.inside_sheds ht hshed).under
    exact ⟨hd, hshed⟩
  · rintro ⟨hmem, hshed⟩
    exact List.mem_flatMap.mpr ⟨c, hmem, hshed⟩

omit hc hx in
/-- Each user loses what it would lose alone. -/
theorem stripped_of_rewired (hu : t.Rewired (Kind.rebased fw i.role) (users.map (·.base))
      (users.flatMap (fun c => c.sheds t (c.initializers { tree := t, framework := fw }) i.role) ++
        [i.decl]) u) (hc : c ∈ users) (hdecl : ¬ t.Under i.decl c.decl) :
    c.Stripped { tree := t, framework := fw } i.role u := by
  have hholds := Component.holds_initializers (s := { tree := t, framework := fw }) ht (husers c hc)
  have hdropped {x : NodeId} (hx : t.Under x c.decl) :
      x ∈ users.flatMap
          (fun c => c.sheds t (c.initializers { tree := t, framework := fw }) i.role) ++ [i.decl] ↔
        x ∈ c.sheds t (c.initializers { tree := t, framework := fw }) i.role := by
    have hne : x ≠ i.decl := fun heq => hdecl (heq ▸ hx)
    rw [List.mem_append, mem_sheds_iff ht husers (husers c hc) hx]
    simp [hne, hc]
  constructor
  · rw [hu.kind_eq, if_pos (List.mem_map_of_mem hc)]
  · intro x hx hne
    rw [hu.kind_eq, if_neg fun hmem => hne ((mem_bases_iff ht husers (husers c hc) hx).mp hmem).2]
  · intro x hx
    rw [hu.parent_eq, if_pos ((hdropped (hholds.inside_sheds ht hx).under).mpr hx)]
  · intro x hx
    rw [hu.children_eq]
    refine List.filter_congr fun y hy => ?_
    have hbelow : t.Under y c.decl := .head (ht.mem_children_iff.mp hy) hx
    simp only [hdropped hbelow]

end

/-- **Removing a schema rewires exactly its users.** The schema is gone, every component that used
it is left without it, and in the other components nothing else is missing. -/
theorem remove_rewires_users (ht : t.WellFormed) (hfile : (t.kind t.root).isFile = true)
    (hi : (t.kind i.decl).isInterface = true) (h : Change.run (i.remove fw) t = (.ok n, u)) :
    let s : Source := { tree := t, framework := fw }
    let s' : Source := { tree := u, framework := fw }
    u.attached i.decl = false ∧
      n = ((Component.all t fw).filter fun c => c.schema? s i.role = some i).length ∧
      (∀ c ∈ Component.all t fw, c.schema? s i.role = some i → c.Unwired s s' i.role) ∧
      ∀ c ∈ Component.all t fw, c.schema? s i.role ≠ some i → ∀ x, t.Under x c.decl →
        u.kind x = t.kind x ∧ u.children x = (t.children x).filter (· ≠ i.decl) ∧
          u.parent x = if x = i.decl then none else t.parent x := by
  intro s s'
  generalize husers : (Component.all t fw).filter
    (fun c => c.schema? s i.role = some i) = users
  obtain ⟨hn, hu⟩ := rewired_remove ht h husers
  have hut := hu.wellFormed ht
  have hmem {c : Component} : c ∈ users ↔ c ∈ Component.all t fw ∧ c.schema? s i.role = some i := by
    rw [← husers, List.mem_filter, decide_eq_true_eq]
  have hall : ∀ c ∈ users, c ∈ Component.all t fw := fun c hc => (hmem.mp hc).1
  refine ⟨?_, hn, ?_, ?_⟩
  · refine hut.not_attached (by rw [hu.parent_eq, if_pos (by simp)]) fun heq => ?_
    rw [heq, hu.root_eq] at hi
    cases hk : t.kind t.root <;> simp_all [Kind.isInterface, Kind.isFile]
  · intro c hc huses
    have hholds := Component.holds_initializers (s := s) ht hc
    have hclass := Component.ofClass?_of_mem_all hc
    have hstripped := stripped_of_rewired ht hall hu (hmem.mpr ⟨hc, huses⟩)
      (not_under_of_schema? (s := s) ht hc huses)
    cases hrole : i.role with
    | props =>
        rw [hrole] at hstripped
        exact hstripped.withoutProps ht hholds hclass hut hu.root_eq
    | state =>
        rw [hrole] at hstripped huses
        obtain ⟨type, htype, -⟩ := Option.bind_eq_some_iff.mp huses
        exact hstripped.withoutState ht hholds hclass (Option.isSome_of_eq_some htype)
  · intro c hc hother x hx
    have hnot : c ∉ users := fun hc' => hother (hmem.mp hc').2
    have hshed {y : NodeId} (hy : t.Under y c.decl) := mem_sheds_iff ht hall hc hy i.role
    refine ⟨?_, ?_, ?_⟩
    · rw [hu.kind_eq, if_neg fun hx' => hnot ((mem_bases_iff ht hall hc hx).mp hx').1]
    · rw [hu.children_eq]
      refine List.filter_congr fun y hy => ?_
      have hbelow : t.Under y c.decl := .head (ht.mem_children_iff.mp hy) hx
      simp [hshed hbelow, hnot]
    · rw [hu.parent_eq]
      simp [hshed hx, hnot]

/-- A file in which two of three components share their props. The first of them takes the props in
its constructor and in its state initialiser. -/
def sharedProps : Draft Unit := do
  let props ← Draft.interface "P" [.simple "RProps"] []
  let _ ← Draft.declare props
  let parameter ← Draft.parameter "props" (some (.simple "P")) none
  let forwarded ← Draft.reference "props"
  let base ← Draft.supertype (.generic "RComponent" [.simple "P", .simple "S"]) (some [forwarded])
  let taken ← Draft.parameter "props" (some (.simple "P")) none
  let body ← Draft.block []
  let init ← Draft.function { name := some "init", receiver := some (.simple "S") } [taken] body
  let first ← Draft.classDecl "A" (some [parameter]) [base] [init]
  let _ ← Draft.declare first
  let base ← Draft.supertype (.generic "RComponent" [.simple "P"]) none
  let second ← Draft.classDecl "B" none [base] []
  let _ ← Draft.declare second
  let base ← Draft.supertype (.generic "RComponent" [.simple "RProps", .simple "S"]) (some [])
  let third ← Draft.classDecl "C" none [base] []
  let _ ← Draft.declare third

/-- Both users of the shared props lose them, and the third component is left alone. -/
theorem remove_rewires_users_sharedProps :
    let t := (sharedProps.run (Tree.ofFile "F")).2
    let i : Schema := { decl := 1, role := .props }
    let u := (Change.run (i.remove {}) t).2
    let s : Source := { tree := t, framework := {} }
    let s' : Source := { tree := u, framework := {} }
    t.WellFormed ∧ (t.kind t.root).isFile = true ∧ (t.kind i.decl).isInterface = true ∧
      Change.run (i.remove {}) t = (.ok 2, u) ∧
      Component.all t {} = [⟨11, 5⟩, ⟨14, 13⟩, ⟨16, 15⟩] ∧
      u.attached 1 = false ∧ (⟨11, 5⟩ : Component).WithoutProps s s' ∧
      (⟨14, 13⟩ : Component).WithoutProps s s' ∧ u.children 16 = t.children 16 := by
  intro t i u s s'
  have hfacts : t.WellFormed ∧ (t.kind t.root).isFile = true ∧
      (t.kind i.decl).isInterface = true ∧ (Change.run (i.remove {}) t).1 = .ok 2 ∧
      Component.all t {} = [⟨11, 5⟩, ⟨14, 13⟩, ⟨16, 15⟩] ∧
      (Component.all t {}).map (·.schema? s .props) = [some i, some i, none] ∧
      1 ∉ t.children 16 := by decide +kernel
  obtain ⟨ht, hfile, hi, hok, hall, hschemas, hchild⟩ := hfacts
  have hrun : Change.run (i.remove {}) t = (.ok 2, u) := by rw [← hok]
  obtain ⟨hgone, -, husers, hothers⟩ := remove_rewires_users ht hfile hi hrun
  simp only [hall, List.map_cons, List.map_nil, List.cons.injEq, and_true] at hschemas
  obtain ⟨hfirst, hsecond, hthird⟩ := hschemas
  have hmem {c : Component} (hc : c ∈ [⟨11, 5⟩, ⟨14, 13⟩, ⟨16, 15⟩]) : c ∈ Component.all t {} :=
    hall ▸ hc
  refine ⟨ht, hfile, hi, hrun, hall, hgone, ?_, ?_, ?_⟩
  · exact husers ⟨11, 5⟩ (hmem (by simp)) hfirst
  · exact husers ⟨14, 13⟩ (hmem (by simp)) hsecond
  have hthird' : (⟨16, 15⟩ : Component).schema? s i.role ≠ some i := by
    intro hsome
    cases hsome.symm.trans hthird
  rw [(hothers _ (hmem (by simp)) hthird' 16 .refl).2.1, List.filter_eq_self]
  intro n hn
  have hne : n ≠ 1 := fun heq => hchild (heq ▸ hn)
  simpa using hne

end Schema

end ComponentAudit
