import ComponentAudit.Edit.Completion
import ComponentAudit.Proofs.Audit.Mended
import ComponentAudit.Proofs.Edit.UpToDate
import ComponentAudit.Proofs.Edit.Wired

set_option autoImplicit false

/-! # Completing a class to a component

Accepting the offer to make a class a component writes one part after the other, and each part is
looked up in the half-built file. The new base class comes first among the supertypes, whatever the
class extended before, so it is the one that makes the class a component. The rest is put together
from creating a schema (`Component.run_createSchema`) and generating a builder function
(`Component.placed_of_addBuilder`).

Main statement: `Completion.accept_consistent`.
-/

namespace ComponentAudit

/-! ## Classes that can be completed -/

/-- Whether nothing stands in the way of making a class a component with props of its own. Nothing
is asked of what the class says. -/
structure Completable (t : Tree) (fw : Framework) (decl : NodeId) (name : String) : Prop where
  mem_declarations : decl ∈ t.declarations
  kind_eq : t.kind decl = .classDecl name
  plain : '.' ∉ name.toList
  unique : ∀ d ∈ t.declarations, t.kind d = .classDecl name → d = decl
  free : ∀ d ∈ t.declarations, (t.kind d).isInterface = true →
    t.name? d ≠ some (name ++ "Props") ∧ t.name? d ≠ some (lastSegment fw.propsBase)

namespace Completable

variable {t v : Tree} {fw : Framework} {decl : NodeId} {name : String}

theorem name?_eq (h : Completable t fw decl name) : t.name? decl = some name := by
  rw [Tree.name?, h.kind_eq]
  rfl

/-- The class is the only one of its name. -/
theorem eq_of_name? (h : Completable t fw decl name) {d : NodeId} (hd : d ∈ t.declarations)
    (hclass : (t.kind d).isClass = true) (hname : t.name? d = t.name? decl) : d = decl := by
  rw [h.name?_eq, Tree.name?] at hname
  refine h.unique d hd ?_
  cases hk : t.kind d with
  | classDecl other =>
      rw [hk] at hname
      cases hname
      rfl
  | _ => simp [hk, Kind.isClass] at hclass

/-- What happens inside the class does not matter. -/
theorem changed (h : Completable t fw decl name) (ht : t.WellFormed) (hv : t.Changed decl v)
    (hroot : v.root = t.root) : Completable v fw decl name := by
  have htop := h.mem_declarations
  have hparent := ht.mem_children_iff.mp (Tree.mem_children_of_significant htop)
  have hdeclarations : v.declarations = t.declarations :=
    hv.declarations_eq ht hroot (ht.lt_size hparent) (ht.ne_root_of_declared htop).symm
  have hkind {d : NodeId} (hd : d ∈ t.declarations) : v.kind d = t.kind d :=
    hv.kind_eq (ht.lt_size_of_declared hd)
  refine ⟨by rw [hdeclarations]; exact htop, by rw [hkind htop, h.kind_eq], h.plain, ?_, ?_⟩
  · intro d hd hclass
    rw [hdeclarations] at hd
    exact h.unique d hd (by rw [← hkind hd, hclass])
  · intro d hd hinterface
    rw [hdeclarations] at hd
    rw [hkind hd] at hinterface
    rw [Tree.name?, hkind hd]
    exact h.free d hd hinterface

end Completable

/-! ## The base class and the `render` function -/

/-- The base class that is written. -/
def Framework.emptyBase (fw : Framework) : TypeExpr :=
  .generic fw.componentBase [.simple fw.propsBase, .simple fw.stateBase]

/-- The supertype that comes first makes a class a component, if it names the base class. -/
theorem Component.ofClass?_of_first {t : Tree} {fw : Framework} {decl entry : NodeId}
    {before after : List NodeId} {call : Bool} (hclass : (t.kind decl).isClass = true)
    (hchildren : t.children decl = before ++ entry :: after)
    (hbefore : ∀ n ∈ before, (t.kind n).isSupertype = false)
    (hentry : t.kind entry = .supertype fw.emptyBase call) :
    ofClass? t fw decl = some { decl, base := entry } := by
  have hsupertypes : t.supertypes decl =
      entry :: after.filter fun n => (t.kind n).isSupertype := by
    rw [Tree.supertypes, hchildren, List.filter_append,
      List.filter_eq_nil_iff.mpr (by simpa using hbefore), List.nil_append,
      List.filter_cons_of_pos (by rw [hentry]; rfl)]
  have htest : (t.supertype? entry).any (·.isClass fw.componentBase) = true := by
    simp [Tree.supertype?, hentry, Framework.emptyBase, TypeExpr.isClass, TypeExpr.simpleName,
      TypeExpr.generic]
  rw [ofClass?, if_pos hclass, hsupertypes, List.find?_cons, htest]
  rfl

section

variable {t : Tree} (ht : t.WellFormed) {decl : NodeId} (hdecl : decl < t.size)

include ht hdecl

/-- Writing the base class changes the children of the class, and the base class is the first of its
supertypes. -/
theorem run_draftBase (fw : Framework) :
    ∃ u before after, (draftBase fw decl).run t = ((), u) ∧ t.Changed decl u ∧ u.root = t.root ∧
      u.Built t.size (.supertype fw.emptyBase true) [] ∧
      u.children decl = before ++ t.size :: after ∧
      ∀ n ∈ before, (u.kind n).isSupertype = false := by
  generalize hk : Kind.supertype fw.emptyBase true = k
  have hleaf : t.Drafted [] (t.size, t.push k) k [] := Tree.drafted_leaf ht k
  have hgrown : t.Grown [] (t.push k) := hleaf.grown
  have ht₁ := hgrown.wellFormed
  have hnew : (t.push k).Built t.size k [] := hleaf.built
  have hlt := hnew.lt_size
  have hdecl₁ : decl < (t.push k).size := Nat.lt_trans hdecl hlt
  have hfree : (t.push k).parent t.size = none := hleaf.free
  have hnot : ¬ (t.push k).Under decl t.size := hgrown.not_under ht hdecl (Nat.le_refl _)
  have hdraft : (Draft.supertype (.generic fw.componentBase [.simple fw.propsBase,
      .simple fw.stateBase]) (some [])).run t = (t.size, t.push k) := by
    rw [← hk]
    rfl
  have hget : (get : Draft Tree).run (t.push k) = (t.push k, t.push k) := rfl
  unfold draftBase
  rw [Draft.run_bind, hdraft, Draft.run_bind, hget]
  dsimp only
  cases hhead : ((t.push k).supertypes decl).head? with
  | none =>
      have hnone : ∀ n ∈ (t.push k).children decl, ((t.push k).kind n).isSupertype = false := by
        simpa [Tree.supertypes, List.filter_eq_nil_iff] using hhead
      generalize (if ((t.push k).parameterList? decl).isSome = true then 1 else 0) = i
      have hchanged := ht₁.changed_insertChild hdecl₁ hlt hfree hnot i
      refine ⟨_, ((t.push k).children decl).take i, ((t.push k).children decl).drop i, rfl,
        hgrown.changed.trans hchanged, ?_, hchanged.built_of_ne hnew (Nat.ne_of_gt hdecl), ?_, ?_⟩
      · rw [Tree.root_insertChild, hgrown.root_eq]
      · rw [Tree.children_insertChild_of_free hdecl₁ hfree, if_pos rfl]
      · intro n hn
        rw [Tree.kind_insertChild, hnone n (List.mem_of_mem_take hn)]
  | some typed =>
      rw [Tree.supertypes, List.head?_filter, List.find?_eq_some_iff_append] at hhead
      obtain ⟨-, before, after, hchildren, hbefore⟩ := hhead
      obtain ⟨hchanged, hroot, hchildren'⟩ :=
        ht₁.changed_replace hdecl₁ hlt hfree hnot hchildren
      refine ⟨_, before, after, rfl, hgrown.changed.trans hchanged, hroot.trans hgrown.root_eq,
        hchanged.built_of_ne hnew (Nat.ne_of_gt hdecl), hchildren', ?_⟩
      intro n hn
      have hmem : n ∈ (t.push k).children decl := by simp [hchildren, hn]
      have hkindN := hchanged.kind_eq (ht₁.inside_of_child hmem).lt_size
      exact (congrArg Kind.isSupertype hkindN).trans (by simpa using hbefore n hn)

/-- Writing the `render` function adds one more member. -/
theorem run_draftRender (fw : Framework) :
    ∃ render u, (draftRender fw decl).run t = (render, u) ∧ t.Changed decl u ∧ u.root = t.root ∧
      u.children decl = t.children decl ++ [render] := by
  -- the function is drafted from the inside out, and then put behind the members
  obtain ⟨callee, h₁, -⟩ := Tree.drafted_call ht "TODO" [] none Tree.Spare.nil (Nat.le_refl _)
  generalize hp₁ : (Draft.call "TODO" [] none).run t = p₁ at h₁
  have h₂ := Tree.drafted_branch h₁.grown.wellFormed .block h₁.spare
  generalize hp₂ : (Draft.branch .block [p₁.1]).run p₁.2 = p₂ at h₂
  have hspare : p₂.2.Spare p₁.2.size ([] ++ [p₂.1]) := h₂.spare
  generalize hd : FunctionDecl.mk (some fw.renderFunction) (some (.simple fw.builderReceiver))
    true = d
  obtain ⟨list, h₃, -⟩ := Tree.drafted_function h₂.grown.wellFormed d hspare
  generalize hp₃ : (Draft.function d [] p₂.1).run p₂.2 = p₃ at h₃
  have hgrown : t.Grown [] p₃.2 := by
    refine (h₁.grown.trans h₂.grown fun n hn => .inr ?_).trans h₃.grown fun n hn => .inr ?_
    · rw [List.mem_singleton.mp hn]
      exact h₁.new
    · rw [List.mem_singleton.mp hn]
      exact Nat.le_trans h₁.grown.size_le h₂.new
  have hnew : t.size ≤ p₃.1 :=
    Nat.le_trans (Nat.le_trans h₁.grown.size_le h₂.grown.size_le) h₃.new
  have hnot : ¬ p₃.2.Under decl p₃.1 := hgrown.not_under ht hdecl hnew
  obtain ⟨hchanged, hchildren⟩ := hgrown.wellFormed.changed_appendChild
    (Nat.lt_of_lt_of_le hdecl hgrown.size_le) h₃.built.lt_size h₃.free hnot
  refine ⟨p₃.1, p₃.2.appendChild decl p₃.1, ?_, hgrown.changed.trans hchanged, ?_, ?_⟩
  · unfold draftRender
    simp only [Draft.run_bind, Draft.block, hd, hp₁, hp₂, hp₃]
    rfl
  · rw [Tree.root_appendChild, hgrown.root_eq]
  · rw [hchildren, hgrown.children_eq hdecl]

/-- **What the drafts make of a class**: a component without props and state of its own. The rest of
the file is left alone. -/
theorem run_drafts (fw : Framework) (hclass : (t.kind decl).isClass = true) :
    ∃ u v render, (draftBase fw decl).run t = ((), u) ∧ (draftRender fw decl).run u = (render, v) ∧
      t.Changed decl v ∧ v.root = t.root ∧ v.Built t.size (.supertype fw.emptyBase true) [] ∧
      Component.ofClass? v fw decl = some { decl, base := t.size } := by
  obtain ⟨u, before, after, hbase, hchanged, hroot, hnew, hchildren, hbefore⟩ :=
    run_draftBase ht hdecl fw
  have hdeclU : decl < u.size := Nat.lt_of_lt_of_le hdecl hchanged.size_le
  obtain ⟨render, v, hrender, hchanged', hroot', hchildren'⟩ :=
    run_draftRender hchanged.wellFormed hdeclU fw
  have hnewV := hchanged'.built_of_ne hnew (Nat.ne_of_gt hdecl)
  refine ⟨u, v, render, hbase, hrender, hchanged.trans hchanged', hroot'.trans hroot, hnewV, ?_⟩
  have hsplit : v.children decl = before ++ t.size :: (after ++ [render]) := by
    simp [hchildren', hchildren]
  refine Component.ofClass?_of_first ?_ hsplit ?_ hnewV.kind_eq
  · rw [hchanged'.kind_eq hdeclU, hchanged.kind_eq hdecl, hclass]
  · intro n hn
    have hmem : n ∈ u.children decl := by simp [hchildren, hn]
    rw [hchanged'.kind_eq (hchanged.wellFormed.inside_of_child hmem).lt_size, hbefore n hn]

end

/-! ## The props -/

/-- Whether a component has props of its own and gets them: the interface that declares them is
found, and the constructor takes them and hands them on. -/
structure Component.Equipped (c : Component) (s : Source) (props : NodeId) : Prop where
  component_eq : ofClass? s.tree s.framework c.decl = some c
  schema?_eq : c.schema? s .props = some { decl := props, role := .props }
  takes : ∃ type, c.argument? s.tree .props = some type ∧ c.TakesProps s.tree type
  passes : c.passesProps s.tree = true
  forwarded?_eq : c.forwarded? s.tree = some propsParameterName

namespace Component

variable {t u : Tree} {fw : Framework} {c : Component} {name : String}

/-- A type that names no interface of the file is no schema. -/
theorem schema?_eq_none {s : Source} {role : Role} {type : TypeExpr}
    (hargument : c.argument? s.tree role = some type)
    (hfree : ∀ d ∈ s.tree.declarations, (s.tree.kind d).isInterface = true →
      s.tree.name? d ≠ some type.simpleName) : c.schema? s role = none := by
  have hnone : s.tree.declaration? type.simpleName Kind.isInterface = none := by
    refine List.find?_eq_none.mpr fun d hd hfound => ?_
    rw [Bool.and_eq_true, beq_iff_eq] at hfound
    exact hfree d hd hfound.2 hfound.1
  simp [schema?, hargument, hnone]

/-- A class that is the only one of its name stays so. -/
theorem Wired.eq_of_name? {s : Source} {role : Role} (h : c.Wired s role name u)
    (hs : s.tree.WellFormed) (hc : c.Declared s.tree)
    (hunique : ∀ d ∈ s.tree.declarations, (s.tree.kind d).isClass = true →
      s.tree.name? d = s.tree.name? c.decl → d = c.decl) {d : NodeId} (hd : d ∈ u.declarations)
    (hclass : (u.kind d).isClass = true) (hname : u.name? d = u.name? c.decl) : d = c.decl := by
  rcases h.mem_declarations_iff.mp hd with rfl | hd
  · rw [h.interface.kind_eq] at hclass
    cases hclass
  · rw [h.kind_declaration hs hc hd] at hclass
    rw [Tree.name?, Tree.name?, h.kind_declaration hs hc hd,
      h.kind_declaration hs hc hc.mem_declarations] at hname
    exact hunique d hd hclass hname

/-- **Creating the props of a component that has none**: it is found under its name and has no
fields. -/
theorem equipped_of_createSchema (ht : t.WellFormed) (hclass : ofClass? t fw c.decl = some c)
    (hbase : t.Built c.base (.supertype fw.emptyBase true) [])
    (h : Completable t fw c.decl name) :
    ∃ u, Change.run (c.createSchema fw .props) t = (.ok t.size, u) ∧
      c.Wired { tree := t, framework := fw } .props (name ++ "Props") u ∧
      c.Equipped { tree := u, framework := fw } t.size ∧
      ({ decl := t.size, role := .props } : Schema).fields { tree := u, framework := fw } = [] := by
  have hargument : c.argument? t .props = some (.simple fw.propsBase) := by
    rw [argument?_of_kind hbase.kind_eq]
    rfl
  have hnone : c.schema? { tree := t, framework := fw } .props = none :=
    schema?_eq_none hargument fun d hd hinterface => (h.free d hd hinterface).2
  have htop := h.mem_declarations
  obtain ⟨u, hrun, hwired, hprops⟩ := run_createSchema ht hclass htop h.name?_eq hnone
  obtain ⟨w, hw, hpasses, -, hforwards⟩ := hprops rfl
  obtain ⟨type, call, hbaseW⟩ := kind_base hw.component_eq
  have hpassed : c.passesProps t = false := by
    simp [passesProps, hbase.kind_eq, Tree.significant, hbase.children_eq]
  refine ⟨u, hrun, hwired, ⟨hwired.component_eq, ?_, ?_, ?_, ?_⟩, ?_⟩
  · refine (hwired.schema?_iff ht (declared_of_ofClass? hclass htop)).mpr ⟨?_, h.plain, by simp, ?_⟩
    · show (c.argument? t .props).isSome = true
      rw [hargument]
      rfl
    · intro d hd hinterface
      exact (h.free d ((List.takeWhile_prefix _).subset hd) hinterface).1
  · refine ⟨.simple (name ++ "Props"), ?_, hforwards.takes⟩
    rw [hwired.argument?_eq, hargument]
    rfl
  · exact hforwards.passesProps_eq hw.wellFormed hbaseW
  · rw [hforwards.forwarded?_eq hw.wellFormed, hpasses, hpassed]
    rfl
  · have hkind := hwired.interface.kind_eq
    have hchildren := hwired.interface.children_eq
    have hmembers : u.members t.size = [] := by
      simp only [Tree.members, Tree.significant, hchildren, hkind]
      rfl
    simp [Schema.fields, Schema.verdicts, hmembers]

end Component

/-! ## The builder function -/

/-- Inside the declarations nothing changes when one more is added. -/
theorem Tree.Extended.built {t u : Tree} {new : NodeId} (h : t.Extended new u)
    (hfile : (t.kind t.root).isFile = true) {n : NodeId} {k : Kind} {cs : List NodeId}
    (hn : t.Built n k cs) (hk : k.isFile = false) (htrivia : k.isTrivia = false) :
    u.Built n k cs where
  lt_size := by
    refine Nat.lt_of_not_le fun hle => ?_
    rw [← hn.kind_eq, ← h.kind_eq hn.lt_size, Tree.kind_of_le hle] at htrivia
    cases htrivia
  kind_eq := (h.kind_eq hn.lt_size).trans hn.kind_eq
  children_eq := by
    refine (h.children_eq hn.lt_size ?_).trans hn.children_eq
    rintro rfl
    rw [hn.kind_eq, hk] at hfile
    cases hfile

/-- A component keeps its props when a function is added to the file. -/
theorem Component.Equipped.extended {t u : Tree} {fw : Framework} {c : Component}
    {props new : NodeId} (h : c.Equipped { tree := t, framework := fw } props)
    (ht : t.WellFormed) (hfile : (t.kind t.root).isFile = true) (htop : c.decl ∈ t.declarations)
    (hextended : t.Extended new u) (hnew : (u.kind new).isFunction = true) :
    c.Equipped { tree := u, framework := fw } props := by
  have hc := declared_of_ofClass? h.component_eq htop
  obtain ⟨type, call, hbase⟩ := kind_base h.component_eq
  have hlt : c.base < t.size := Tree.lt_size_of_parent (ht.mem_children_iff.mp hc.mem_base)
  have hne : c.base ≠ t.root := by
    intro heq
    have hbase : t.kind c.base = _ := hbase
    rw [← heq, hbase] at hfile
    cases hfile
  have hsignificant := hextended.significant_eq ht hlt hne
  refine ⟨?_, ?_, ?_, ?_, ?_⟩
  · exact (hextended.ofClass?_eq ht htop fw).trans h.component_eq
  · exact (hextended.schema?_eq ht hc hnew .props).trans h.schema?_eq
  · obtain ⟨type, hargument, list, p, ref, rest, hchildren, hlist, hp, href⟩ := h.takes
    refine ⟨type, (hextended.argument?_eq ht hc .props).trans hargument, list, p, ref, rest, ?_,
      hextended.built hfile hlist rfl rfl, hextended.built hfile hp rfl rfl,
      hextended.built hfile href rfl rfl⟩
    exact (hextended.children_eq (ht.lt_size_of_declared htop)
      (ht.ne_root_of_declared htop)).trans hchildren
  · show c.passesProps u = true
    rw [passesProps, hextended.kind_eq hlt, hsignificant]
    exact h.passes
  · show c.forwarded? u = some propsParameterName
    rw [← h.forwarded?_eq, forwarded?, forwarded?, hsignificant]
    refine Option.bind_congr fun a ha => ?_
    have hmem := Tree.mem_children_of_significant (List.mem_of_head? ha)
    rw [Tree.referenceName?, Tree.referenceName?, hextended.kind_child ht hmem]

/-- A generated function of a component without fields is up to date. -/
theorem Blueprint.Placed.exists_upToDate {b : Blueprint} {s : Source} {n : Nodes}
    (h : b.Placed s n) {c : Component} (hknown : s.bodiesKnown = true) (hempty : b.fields = [])
    (hfields : ({ component := c, call := n.call } : Construction).fields? s = some b.fields) :
    ∃ g, ({ component := c, call := n.call } : Construction).gaps? s = some g ∧
      g.upToDate = true := by
  obtain ⟨props, hprops⟩ := Construction.exists_props hfields
  have hstate := Construction.state?_eq hknown hfields h.drawn.trailingLambda?_eq
    h.lambdaBody?_eq hprops
  refine ⟨_, by rw [Construction.gaps?, hfields, hstate]; rfl, ?_⟩
  have hunknown : (Solver.ofLambda s n.lambda n.block props b.fields).atSink.unknown = [] :=
    Solver.unknown_atSink_eq_nil h.lambdaBody?_eq h.nodup h.onlyAssigns
  have houtdated : ∀ x ∈ (Solver.ofLambda s n.lambda n.block props b.fields).atSink.assigned,
      s.outdated? x.1 x.2 = none := fun x hx => h.outdated?_eq_none
    (fun f hf g hg => Construction.eq_of_decl hfields hf hg) hx
  generalize (Solver.ofLambda s n.lambda n.block props b.fields).atSink = state
    at hunknown houtdated ⊢
  have hmissing : (s.gaps state b.fields).missing = [] := by
    rw [hempty]
    rfl
  have hstray : (s.gaps state b.fields).unknown = [] := hunknown
  have hother : (s.gaps state b.fields).outdated = [] := Source.outdated_gaps_eq_nil houtdated
  show (s.gaps state b.fields).upToDate = true
  rw [Gaps.upToDate, hmissing, hstray, hother]
  rfl

/-! ## The whole completion -/

/-- Whether what an accepted offer has made fits together: the props are found and handed on, there
is a builder function, and one that was generated leaves nothing out. -/
structure Completed.Consistent (done : Completed) (s : Source) : Prop where
  equipped : done.component.Equipped s done.propsInterface
  builder : done.component.builder? s ≠ none
  generated : ∀ f, done.builderFunction = some f → ∃ k g,
    ({ component := done.component, function := f } : Builder).construction? s.tree = some k ∧
      Construction.ofCall? s k.call = some k ∧ k.gaps? s = some g ∧ g.upToDate = true

section

variable {t : Tree} {fw : Framework} {c : Component}

/-- **Generating the builder function of a component without fields.** -/
theorem Component.run_addBuilder_of_equipped (ht : t.WellFormed)
    (hfile : (t.kind t.root).isFile = true) (htop : c.decl ∈ t.declarations)
    (hunique : ∀ d ∈ t.declarations, (t.kind d).isClass = true → t.name? d = t.name? c.decl →
      d = c.decl) {props : NodeId} (hprops : c.Equipped { tree := t, framework := fw } props)
    (hfields : ({ decl := props, role := .props } : Schema).fields
      { tree := t, framework := fw } = []) (render : NodeId) :
    ∃ b u, Change.run (c.addBuilder fw) t = (.ok b, u) ∧
      ({ component := c, propsInterface := props, renderFunction := render,
         builderFunction := some b.function } : Completed).Consistent
        { tree := u, framework := fw } := by
  have hclass := hprops.component_eq
  have hc : c.Declared t := declared_of_ofClass? hclass htop
  obtain ⟨b, u, hrun⟩ := run_addBuilder_of_parent fw ht hc.isClass
    (Tree.attached_declaration ht htop) (hc.parent_decl ht)
  obtain ⟨blueprint, n, rfl, hextended, hplaced, hempty, -, hname, -⟩ :=
    placed_of_addBuilder ht hfile hc hprops.schema?_eq hfields (by simp) (by simp)
      ⟨fw.bodyParameter, by simp [bodyNames], rfl⟩ hrun
  have hkind : (u.kind n.function).isFunction = true := by
    rw [hplaced.drawn.function.kind_eq]
    rfl
  have hequipped := hprops.extended ht hfile htop hextended hkind
  refine ⟨_, u, hrun, hequipped, (builder?_of_addBuilder ht hfile hc hclass hrun).2, ?_⟩
  rintro f hf
  obtain rfl : n.function = f := Option.some.inj hf
  have hparts := hplaced.parts c
  have hcall := ofCall?_generated ht hclass htop hunique hname hextended hplaced.drawn
  have hfields' : ({ component := c, call := n.call } : Construction).fields?
      { tree := u, framework := fw } = some blueprint.fields := by
    rw [Construction.fields?, hequipped.schema?_eq, Option.map_some,
      hextended.fields_eq ht (declared_of_schema? hprops.schema?_eq), hfields, hempty]
  obtain ⟨g, hg, hupToDate⟩ := hplaced.exists_upToDate rfl hempty hfields'
  refine ⟨{ component := c, call := n.call }, g, ?_, hcall, hg, hupToDate⟩
  show Builder.construction? _ u = _
  simp [Builder.construction?, hparts.call_eq, hparts.kind_call]

/-- Everything but the builder function. The parts are looked up in the half-built file, and each
one is found there as it was written. -/
theorem run_makeComponent_equipped (ht : t.WellFormed) (hfile : (t.kind t.root).isFile = true)
    {decl : NodeId} {name : String} (h : Completable t fw decl name) :
    ∃ (c : Component) (props render : NodeId) (w : Tree), c.decl = decl ∧
      Change.run (makeComponent fw decl) t = Change.run (do
        if (c.builder? { tree := w, framework := fw }).isSome then
          return { component := c, propsInterface := props, renderFunction := render,
                   builderFunction := none }
        else
          let builder ← c.addBuilder fw
          return { component := c, propsInterface := props, renderFunction := render,
                   builderFunction := some builder.function }) w ∧
      w.WellFormed ∧ (w.kind w.root).isFile = true ∧ c.decl ∈ w.declarations ∧
      (∀ d ∈ w.declarations, (w.kind d).isClass = true → w.name? d = w.name? c.decl → d = c.decl) ∧
      c.Equipped { tree := w, framework := fw } props ∧
      ({ decl := props, role := .props } : Schema).fields { tree := w, framework := fw } = [] := by
  have htop := h.mem_declarations
  have hclass : (t.kind decl).isClass = true := by
    rw [h.kind_eq]
    rfl
  have hlt : t.root < t.size :=
    ht.lt_size (ht.mem_children_iff.mp (Tree.mem_children_of_significant htop))
  obtain ⟨t₁, v, render, hbase, hrender, hchanged, hroot, hnew, hcomponent⟩ :=
    run_drafts ht (ht.lt_size_of_declared htop) fw hclass
  let c : Component := { decl, base := t.size }
  have hv : Completable v fw c.decl name := h.changed ht hchanged hroot
  have hdeclared : c.Declared v := Component.declared_of_ofClass? hcomponent hv.mem_declarations
  obtain ⟨w, hcreate, hwired, hequipped, hfields⟩ :=
    Component.equipped_of_createSchema hchanged.wellFormed hcomponent hnew hv
  refine ⟨c, v.size, render, w, rfl, ?_, hwired.wellFormed, ?_,
    (hwired.declared hv.mem_declarations).mem_declarations, ?_, hequipped, hfields⟩
  · have htarget : ((t.kind decl).isClass && t.attached decl) = true := by
      rw [hclass, Tree.attached_declaration ht htop]
      rfl
    unfold makeComponent
    rw [Change.run_bind_ok (Change.run_get t)]
    dsimp only
    rw [if_pos htarget, Change.run_bind_ok (Change.run_draft hbase),
      Change.run_bind_ok (Change.run_draft hrender), Change.run_bind_ok (Change.run_get v),
      hcomponent]
    dsimp only
    rw [Change.run_bind_ok hcreate, Change.run_bind_ok (Change.run_source fw)]
  · have hkind : w.kind t.root = v.kind t.root :=
      hwired.kind_eq (Nat.lt_of_lt_of_le hlt hchanged.size_le) (Nat.ne_of_lt hlt)
    have hrootW : w.root = t.root := hwired.root_eq.trans hroot
    rw [hrootW, hkind, hchanged.kind_eq hlt, hfile]
  · intro d hd hclassW hnameW
    exact hwired.eq_of_name? hchanged.wellFormed hdeclared
      (fun d hd hclassV hnameV => hv.eq_of_name? hd hclassV hnameV) hd hclassW hnameW

/-- **Making a class a component yields a consistent one.** -/
theorem run_makeComponent (ht : t.WellFormed) (hfile : (t.kind t.root).isFile = true)
    {decl : NodeId} {name : String} (h : Completable t fw decl name) :
    ∃ done u, Change.run (makeComponent fw decl) t = (.ok done, u) ∧
      done.component.decl = decl ∧ done.Consistent { tree := u, framework := fw } := by
  obtain ⟨c, props, render, w, rfl, hrun, hw, hfileW, htopW, huniqueW, hequipped, hfields⟩ :=
    run_makeComponent_equipped ht hfile h
  rw [hrun]
  cases hbuilder : c.builder? { tree := w, framework := fw } with
  | some b =>
      refine ⟨_, w, rfl, rfl, hequipped, ?_, ?_⟩
      · show c.builder? { tree := w, framework := fw } ≠ none
        rw [hbuilder]
        exact Option.some_ne_none b
      · intro f hf
        cases hf
  | none =>
      obtain ⟨b, u, hadd, hconsistent⟩ :=
        Component.run_addBuilder_of_equipped hw hfileW htopW huniqueW hequipped hfields render
      refine ⟨_, u, ?_, rfl, hconsistent⟩
      rw [Option.isSome_none, if_neg Bool.false_ne_true, Change.run_bind_ok hadd]
      rfl

/-- **An accepted offer yields a consistent component.** The class has a name without a dot and is
the only one of its name, whatever else it says, and no interface has the name of the new props or
that of the base type of all props. -/
theorem Completion.accept_consistent (offer : Completion) (ht : t.WellFormed)
    (hfile : (t.kind t.root).isFile = true) {name : String}
    (h : Completable t fw offer.decl name) :
    ∃ done u, Change.run (offer.accept fw) t = (.ok done, u) ∧
      done.component.decl = offer.decl ∧ done.Consistent { tree := u, framework := fw } := by
  obtain ⟨done, u, hrun, hdecl, hconsistent⟩ := run_makeComponent ht hfile h
  refine ⟨done, u, ?_, hdecl, hconsistent⟩
  -- nothing is refused, so nothing is taken back
  rw [accept, Change.atomically, Change.run_bind_ok (Change.run_get t), Change.run_tryCatch, hrun]

end

/-- An interface for other props, and a class `C` that extends another one and has a constructor and
a member. Answers the class. -/
def plainClass : Draft NodeId := do
  let field ← Draft.property "f" (some (.simple "Int")) true
  let other ← Draft.interface "OtherProps" [.simple "RProps"] [field]
  let _ ← Draft.declare other
  let x ← Draft.parameter "x" (some (.simple "Int")) none
  let a ← Draft.reference "x"
  let base ← Draft.supertype (.simple "View") (some [a])
  let member ← Draft.property "m" (some (.simple "Int")) false
  let decl ← Draft.classDecl "C" (some [x]) [base] [member]
  Draft.declare decl

/-- The class of such a file, made a component. -/
theorem Completion.accept_consistent_plainClass :
    let t := (plainClass.run (Tree.ofFile "F")).2
    let offer : Completion :=
      { decl := 10, lookup := "RComponent<CProps, RState>(props) \x7b ... \x7d" }
    t.WellFormed ∧ (t.kind t.root).isFile = true ∧ t.declarations = [3, 10] ∧
      Component.ofClass? t {} 10 = none ∧ completion? t {} 10 = some offer ∧
      ∃ done u, Change.run (offer.accept {}) t = (.ok done, u) ∧ done.component.decl = 10 ∧
        done.Consistent { tree := u, framework := {} } := by
  intro t offer
  have hfacts : t.WellFormed ∧ (t.kind t.root).isFile = true ∧ t.declarations = [3, 10] ∧
      Component.ofClass? t {} 10 = none ∧ completion? t {} 10 = some offer ∧
      t.kind 10 = .classDecl "C" ∧
      (∀ d ∈ t.declarations, t.kind d = .classDecl "C" → d = 10) ∧
      (∀ d ∈ t.declarations, (t.kind d).isInterface = true →
        t.name? d ≠ some "CProps" ∧ t.name? d ≠ some (lastSegment "RProps")) := by decide +kernel
  obtain ⟨ht, hfile, hdeclarations, hnone, hoffer, hclass, hunique, hfree⟩ := hfacts
  have htop : offer.decl ∈ t.declarations := by
    rw [hdeclarations]
    decide
  exact ⟨ht, hfile, hdeclarations, hnone, hoffer,
    accept_consistent offer ht hfile ⟨htop, hclass, by decide, hunique, hfree⟩⟩

end ComponentAudit
