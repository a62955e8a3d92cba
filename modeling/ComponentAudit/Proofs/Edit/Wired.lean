import Mathlib.Data.List.TakeWhile
import ComponentAudit.Proofs.Edit.Unwired

set_option autoImplicit false

/-! # Creating a schema

A new interface goes before the class of its component, or before the state when it declares the
props, and the component names it among the arguments of its base class. The name is looked up
afterwards as any other name is: in the declarations of the file, from the first one on.

Main statement: `Component.createSchema_wires_iff`, the exact condition for the new interface to be
the one that is found, and for the base class to get the props.
-/

namespace ComponentAudit

/-! ## Names without a dot -/

theorem lastSegment_eq_self_iff {name : String} : lastSegment name = name ↔ '.' ∉ name.toList := by
  have hlist : lastSegment name = name ↔
      (name.toList.reverse.takeWhile (· != '.')).reverse = name.toList := by
    rw [lastSegment, ← String.toList_inj, String.toList_ofList]
  rw [hlist, List.reverse_eq_iff, List.takeWhile_eq_self_iff]
  constructor
  · intro h hdot
    simpa using h '.' (List.mem_reverse.mpr hdot)
  · intro h x hx
    have hne : x ≠ '.' := fun heq => h (heq ▸ List.mem_reverse.mp hx)
    simpa using hne

theorem Role.dot_mem_suffix (role : Role) {name : String} :
    '.' ∈ (name ++ role.suffix).toList ↔ '.' ∈ name.toList := by
  rw [String.toList_append, List.mem_append]
  cases role <;> simp [suffix]

/-! ## The interface in its place -/

/-- A new node put right before a declaration of the file. -/
theorem Tree.WellFormed.exists_insertBefore {t : Tree} (ht : t.WellFormed) {place : NodeId}
    (hplace : place ∈ t.declarations) {k : Kind} (hk : k.isTrivia = false) :
    ∃ v, (t.push k).insertBefore place t.size = (true, v) ∧ t.Extended t.size v ∧
      v.Built t.size k [] ∧ ∃ before after, t.declarations = before ++ place :: after ∧
        v.declarations = before ++ t.size :: place :: after := by
  have hleaf : t.Drafted [] (t.size, t.push k) k [] := drafted_leaf ht k
  have hparent := ht.mem_children_iff.mp (mem_children_of_significant hplace)
  have hroot : t.size ≠ t.root := Nat.ne_of_gt (ht.lt_size hparent)
  obtain ⟨i, v, hi, hinsert, hextended, hchildren, hbuilt⟩ :=
    hleaf.grown.exists_extended ht hleaf.new hleaf.built.lt_size hleaf.free hparent 0
  have hnew := hbuilt hroot hleaf.built
  have hsplit : (t.children t.root).drop i = place :: (t.children t.root).drop (i + 1) := by
    obtain ⟨hlt, hget⟩ := List.getElem?_eq_some_iff.mp hi
    rw [List.drop_eq_getElem_cons hlt, hget]
  have htrivia : (t.kind place).isTrivia = false := by
    simpa using (List.mem_filter.mp hplace).2
  have hkind : ∀ n ∈ t.children t.root, v.kind n = t.kind n :=
    fun n hn => hextended.kind_child ht hn
  refine ⟨v, hinsert, hextended, hnew,
    ((t.children t.root).take i).filter fun n => !(t.kind n).isTrivia,
    ((t.children t.root).drop (i + 1)).filter fun n => !(t.kind n).isTrivia, ?_, ?_⟩
  · calc t.declarations
        = ((t.children t.root).take i ++ (t.children t.root).drop i).filter
            fun n => !(t.kind n).isTrivia := by rw [List.take_append_drop]; rfl
      _ = _ := by rw [hsplit, List.filter_append, List.filter_cons_of_pos (by simp [htrivia])]
  · calc v.declarations
        = ((t.children t.root).take i ++ t.size :: (t.children t.root).drop i).filter
            fun n => !(v.kind n).isTrivia := by
          rw [declarations, significant, hextended.root_eq, hchildren, Nat.add_zero]
      _ = ((t.children t.root).take i).filter (fun n => !(v.kind n).isTrivia) ++ t.size ::
            ((t.children t.root).drop i).filter fun n => !(v.kind n).isTrivia := by
          rw [List.filter_append, List.filter_cons_of_pos (by simp [hnew.kind_eq, hk])]
      _ = ((t.children t.root).take i).filter (fun n => !(t.kind n).isTrivia) ++ t.size ::
            ((t.children t.root).drop i).filter fun n => !(t.kind n).isTrivia := by
          congr 1
          · exact List.filter_congr fun n hn => by rw [hkind n (List.mem_of_mem_take hn)]
          · congr 1
            exact List.filter_congr fun n hn => by rw [hkind n (List.mem_of_mem_drop hn)]
      _ = _ := by rw [hsplit, List.filter_cons_of_pos (by simp [htrivia])]

namespace Component

/-- Whether a tree comes from another one by a new interface that a component names as its props or
its state. The number of the interface is the first one that was free. -/
structure Wired (c : Component) (s : Source) (role : Role) (name : String) (u : Tree) : Prop where
  wellFormed : u.WellFormed
  root_eq : u.root = s.tree.root
  interface : u.Built s.tree.size (.interface name [.simple (role.base s.framework)]) []
  declarations_eq : ∃ before after, s.tree.declarations = before ++ c.schemaPlace s role :: after ∧
    u.declarations = before ++ s.tree.size :: c.schemaPlace s role :: after
  kind_eq : ∀ {n : NodeId}, n < s.tree.size → n ≠ c.base → u.kind n = s.tree.kind n
  argument?_eq : c.argument? u role = (c.argument? s.tree role).map fun _ => .simple name
  component_eq : ofClass? u s.framework c.decl = some c

variable {t u : Tree} {fw : Framework} {c : Component} {role : Role}

/-- The place for a new interface is a declaration of the file. -/
theorem schemaPlace_mem {s : Source} (hc : c.decl ∈ s.tree.declarations) (role : Role) :
    c.schemaPlace s role ∈ s.tree.declarations := by
  cases role with
  | props =>
      unfold schemaPlace
      cases hstate : c.schema? s .state with
      | none => exact hc
      | some schema => exact (schema?_spec hstate).1
  | state => exact hc

/-- Whether a component names an interface in its base class, in a tree that has new nodes below its
root and is the same otherwise. -/
structure Announced (c : Component) (t : Tree) (role : Role) (name : String) (w : Tree) : Prop where
  kind_eq : ∀ {n : NodeId}, n < t.size → n ≠ c.base → w.kind n = t.kind n
  children_eq : ∀ {n : NodeId}, n < t.size → n ≠ t.root → w.children n = t.children n
  kind_base : ∀ {type : TypeExpr} {call : Bool}, t.kind c.base = .supertype type call →
    w.kind c.base =
      .supertype { type with args := type.args.set role.argumentIndex (.simple name) } call

namespace Announced

variable {w : Tree} {name : String} (h : c.Announced t role name w) (ht : t.WellFormed)
  (hclass : ofClass? t fw c.decl = some c) (htop : c.decl ∈ t.declarations)

include h hclass

theorem argument?_eq : c.argument? w role = (c.argument? t role).map fun _ => .simple name := by
  obtain ⟨type, call, hbase⟩ := Component.kind_base hclass
  rw [argument?_of_kind (h.kind_base hbase), argument?_of_kind hbase]
  exact List.getElem?_set_self' ..

include ht htop

/-- The base class has the arguments that it had. -/
theorem significant_base : w.significant c.base = t.significant c.base ∧
    ∀ n ∈ t.children c.base, w.kind n = t.kind n := by
  have hc := declared_of_ofClass? hclass htop
  have hparent := ht.mem_children_iff.mp hc.mem_base
  have hroot : c.base ≠ t.root := by
    intro heq
    have hdecl := hc.parent_decl ht
    rw [← heq] at hdecl
    exact ht.acyclic c.base (.tail (.single hparent) hdecl)
  have hkind : ∀ n ∈ t.children c.base, w.kind n = t.kind n := by
    intro n hn
    have hn' := ht.mem_children_iff.mp hn
    exact h.kind_eq (Tree.lt_size_of_parent hn') fun heq => ht.acyclic c.base (.single (heq ▸ hn'))
  refine ⟨?_, hkind⟩
  rw [Tree.significant, h.children_eq (Tree.lt_size_of_parent hparent) hroot, Tree.significant]
  exact List.filter_congr fun n hn => by rw [hkind n hn]

theorem passesProps_eq : c.passesProps w = c.passesProps t := by
  obtain ⟨type, call, hbase⟩ := Component.kind_base hclass
  rw [passesProps, passesProps, h.kind_base hbase, hbase, (h.significant_base ht hclass htop).1]

theorem forwarded?_eq : c.forwarded? w = c.forwarded? t := by
  obtain ⟨hsignificant, hkind⟩ := h.significant_base ht hclass htop
  rw [forwarded?, hsignificant, forwarded?]
  refine Option.bind_congr fun a ha => ?_
  have hmem := Tree.mem_children_of_significant (List.mem_of_head? ha)
  rw [Tree.referenceName?, Tree.referenceName?, hkind a hmem]

/-- The class is the component that it was. -/
theorem ofClass?_eq : ofClass? w fw c.decl = some c := by
  have hc := declared_of_ofClass? hclass htop
  have hparent := ht.mem_children_iff.mp hc.mem_base
  obtain ⟨type, call, hbase⟩ := Component.kind_base hclass
  have hsupertypes : w.supertypes c.decl = t.supertypes c.decl := by
    rw [Tree.supertypes, h.children_eq (ht.lt_size hparent) (ht.ne_root_of_declared htop),
      Tree.supertypes]
    refine List.filter_congr fun n hn => ?_
    by_cases hnb : n = c.base
    · rw [hnb, h.kind_base hbase, hbase]
      rfl
    · rw [h.kind_eq (Tree.lt_size_of_parent (ht.mem_children_iff.mp hn)) hnb]
  rw [← hclass]
  refine ofClass?_congr ?_ hsupertypes fun n hn => ?_
  · rw [h.kind_eq (ht.lt_size hparent) fun heq => ht.acyclic c.base (.single (heq ▸ hparent))]
  · unfold Tree.supertype?
    by_cases hnb : n = c.base
    · rw [hnb, h.kind_base hbase, hbase]
      rfl
    · have hn' := ht.mem_children_iff.mp (List.mem_filter.mp hn).1
      rw [h.kind_eq (Tree.lt_size_of_parent hn') hnb]

end Announced

/-- A new interface in its place, named in the base class where there is an argument for it. -/
theorem wired_announce (ht : t.WellFormed) (hclass : ofClass? t fw c.decl = some c)
    (htop : c.decl ∈ t.declarations) (role : Role) (name : String) :
    ∃ v w : Tree, (t.push (.interface name [.simple (role.base fw)])).insertBefore
        (c.schemaPlace { tree := t, framework := fw } role) t.size = (true, v) ∧
      ((c.setArgument role (.simple name)).run v).2 = w ∧
      c.Wired { tree := t, framework := fw } role name w ∧
      c.passesProps w = c.passesProps t ∧ c.forwarded? w = c.forwarded? t := by
  have hc := declared_of_ofClass? hclass htop
  have hplace := schemaPlace_mem (s := { tree := t, framework := fw }) htop role
  obtain ⟨v, hinsert, hextended, hnew, before, after, hbefore, hafter⟩ :=
    ht.exists_insertBefore hplace (k := .interface name [.simple (role.base fw)]) rfl
  have hstep := rewired_setArgument v c role (.simple name)
  generalize hw : ((c.setArgument role (.simple name)).run v).2 = w at hstep
  have hparent := ht.mem_children_iff.mp hc.mem_base
  have hlt : c.base < t.size := Tree.lt_size_of_parent hparent
  -- the interface leaves old nodes alone, and the base class is the only one that is retyped
  have hchildrenW (n : NodeId) : w.children n = v.children n := by simp [hstep.children_eq]
  have hkindW {n : NodeId} (hn : n ≠ c.base) : w.kind n = v.kind n := by
    rw [hstep.kind_eq, if_neg (by simpa using hn)]
  have hannounced : c.Announced t role name w := by
    refine ⟨fun hn hnb => ?_, fun hn hne => ?_, fun hbase => ?_⟩
    · rw [hkindW hnb, hextended.kind_eq hn]
    · rw [hchildrenW, hextended.children_eq hn hne]
    · rw [hstep.kind_eq, if_pos (by simp), hextended.kind_eq hlt, hbase]
      rfl
  refine ⟨v, w, hinsert, hw, ?_, hannounced.passesProps_eq ht hclass htop,
    hannounced.forwarded?_eq ht hclass htop⟩
  exact {
    wellFormed := hstep.wellFormed hextended.wellFormed
    root_eq := by rw [hstep.root_eq, hextended.root_eq]
    interface := by
      refine ⟨by rw [hstep.size_eq]; exact hnew.lt_size, ?_, ?_⟩
      · rw [hkindW (Nat.ne_of_gt hlt), hnew.kind_eq]
      · rw [hchildrenW, hnew.children_eq]
    declarations_eq := by
      refine ⟨before, after, hbefore, ?_⟩
      rw [← hafter, Tree.declarations, Tree.declarations, Tree.significant, Tree.significant,
        hstep.root_eq, hchildrenW]
      refine List.filter_congr fun n hn => ?_
      rw [hkindW]
      -- the base class hangs below the class of the component
      rintro rfl
      have hroot : c.decl ≠ t.root := ht.ne_root_of_declared htop
      have hmem : c.base ∈ v.children c.decl := by
        rw [hextended.children_eq (ht.lt_size hparent) hroot]
        exact hc.mem_base
      have heq := (hextended.wellFormed.mem_children_iff.mp hmem).symm.trans
        (hextended.wellFormed.mem_children_iff.mp hn)
      exact hroot ((Option.some.inj heq).trans hextended.root_eq)
    kind_eq := hannounced.kind_eq
    argument?_eq := hannounced.argument?_eq hclass
    component_eq := hannounced.ofClass?_eq ht hclass htop }

/-- The interface is the only new declaration. -/
theorem Wired.mem_declarations_iff {s : Source} {name : String} (h : c.Wired s role name u)
    {d : NodeId} : d ∈ u.declarations ↔ d = s.tree.size ∨ d ∈ s.tree.declarations := by
  obtain ⟨before, after, hbefore, hafter⟩ := h.declarations_eq
  rw [hbefore, hafter]
  simp only [List.mem_append, List.mem_cons]
  tauto

/-- The class is still declared in the file. -/
theorem Wired.declared {s : Source} {name : String} (h : c.Wired s role name u)
    (htop : c.decl ∈ s.tree.declarations) : c.Declared u :=
  declared_of_ofClass? h.component_eq (h.mem_declarations_iff.mpr (.inr htop))

/-- What is wired stays so when the component takes its props. -/
theorem Wired.forwards {s : Source} {name : String} {w : Tree} {props : TypeExpr}
    (h : c.Wired s role name w) (hbase : c.base < s.tree.size) (hdecl : c.decl < s.tree.size)
    (htop : c.decl ∈ s.tree.declarations) (hu : c.Forwards w props u) :
    c.Wired s role name u := by
  obtain ⟨before, after, hbefore, hafter⟩ := h.declarations_eq
  have hc := h.declared htop
  obtain ⟨type, call, hkind⟩ := kind_base h.component_eq
  have hsize := h.interface.lt_size
  exact {
    wellFormed := hu.wellFormed
    root_eq := by rw [hu.root_eq, h.root_eq]
    interface := by
      refine ⟨Nat.lt_of_lt_of_le hsize hu.size_le, ?_, ?_⟩
      · rw [hu.kind_eq hsize (Nat.ne_of_gt hbase), h.interface.kind_eq]
      · rw [hu.children_eq hsize (Nat.ne_of_gt hdecl) (Nat.ne_of_gt hbase),
          h.interface.children_eq]
    declarations_eq := ⟨before, after, hbefore, by rw [hu.declarations_eq h.wellFormed hc, hafter]⟩
    kind_eq := fun hn hnb => by
      rw [hu.kind_eq (Nat.lt_trans hn hsize) hnb, h.kind_eq hn hnb]
    argument?_eq := by rw [hu.argument?_eq hkind, h.argument?_eq]
    component_eq := hu.ofClass?_eq h.wellFormed hc h.component_eq }

/-- **Creating a schema that is not there**: the interface is put in its place and named, and a
component that gets props takes them and hands them on. -/
theorem run_createSchema (ht : t.WellFormed) (hclass : ofClass? t fw c.decl = some c)
    (htop : c.decl ∈ t.declarations) {name : String} (hname : t.name? c.decl = some name)
    (hnone : c.schema? { tree := t, framework := fw } role = none) :
    ∃ u, Change.run (c.createSchema fw role) t = (.ok t.size, u) ∧
      c.Wired { tree := t, framework := fw } role (name ++ role.suffix) u ∧
      (role = .props → ∃ w, c.Wired { tree := t, framework := fw } role (name ++ role.suffix) w ∧
        c.passesProps w = c.passesProps t ∧ c.forwarded? w = c.forwarded? t ∧
        c.Forwards w (.simple (name ++ role.suffix)) u) := by
  have hc := declared_of_ofClass? hclass htop
  obtain ⟨v, w, hinsert, hset, hwired, hpasses, hforwarded⟩ :=
    wired_announce ht hclass htop role (name ++ role.suffix)
  have hneed : Change.run (Change.needAttached c.decl) t = (.ok (), t) := by
    rw [Change.run_needAttached, Tree.attached_declaration ht htop]
    rfl
  have hrun : Change.run (c.createSchema fw role) t = Change.run (do
      if role = .props then c.passProps (.simple (name ++ role.suffix))
      return t.size) w := by
    unfold createSchema
    rw [Change.run_bind_ok hneed, Change.run_bind_ok (Change.run_source fw)]
    dsimp only
    rw [hnone]
    dsimp only [name?]
    rw [hname]
    have hdraft : (Draft.interface (name ++ role.suffix) [.simple (role.base fw)] []).run t =
        (t.size, t.push (.interface (name ++ role.suffix) [.simple (role.base fw)])) := rfl
    have hplace : (Draft.insertBefore (c.schemaPlace { tree := t, framework := fw } role)
        t.size).run (t.push (.interface (name ++ role.suffix) [.simple (role.base fw)])) =
        (true, v) := hinsert
    have hargument : (c.setArgument role (.simple (name ++ role.suffix))).run v =
        (((c.setArgument role (.simple (name ++ role.suffix))).run v).1, w) := Prod.ext rfl hset
    dsimp only
    rw [Change.run_bind_ok (Change.run_draft hdraft), Change.run_bind_ok (Change.run_draft hplace),
      if_pos rfl, Change.run_bind_ok (Change.run_draft hargument)]
  cases role with
  | state => exact ⟨w, hrun, hwired, by simp⟩
  | props =>
      have hparent := ht.mem_children_iff.mp hc.mem_base
      obtain ⟨type, call, hbase⟩ := kind_base hwired.component_eq
      obtain ⟨u, hpass, hforwards⟩ := forwards_passProps hwired.wellFormed
        (hwired.declared htop) hbase (.simple (name ++ Role.suffix .props))
      rw [if_pos rfl, Change.run_bind_ok hpass] at hrun
      exact ⟨u, hrun, hwired.forwards (Tree.lt_size_of_parent hparent) (ht.lt_size hparent) htop
        hforwards, fun _ => ⟨w, hwired, hpasses, hforwarded, hforwards⟩⟩

/-! ## Finding the interface -/

/-- Whether nothing keeps a component from finding an interface that is created for it. The base
class needs an argument to name it; the name is cut at a dot; an interface that extends both base
types declares props; and of interfaces with one name the first one is found. -/
structure Findable (c : Component) (s : Source) (role : Role) (name : String) : Prop where
  argument : (c.argument? s.tree role).isSome = true
  plain : '.' ∉ name.toList
  distinct : role = .state → lastSegment s.framework.propsBase ≠ lastSegment s.framework.stateBase
  first : ∀ d ∈ s.tree.declarations.takeWhile (· ≠ c.schemaPlace s role),
    (s.tree.kind d).isInterface = true → s.tree.name? d ≠ some (name ++ role.suffix)

/-- The role of the new interface. -/
theorem role_of_interface {new : NodeId} {name : String}
    (hnew : u.kind new = .interface name [.simple (role.base fw)]) :
    Role.of? u fw new = some role ↔
      (role = .state → lastSegment fw.propsBase ≠ lastSegment fw.stateBase) := by
  cases role with
  | props => simp [Role.of?, hnew, Kind.interfaceSupertypes, TypeExpr.isClass, TypeExpr.simpleName,
      TypeExpr.simple]
  | state =>
      by_cases hsame : lastSegment fw.propsBase = lastSegment fw.stateBase
      · simp [Role.of?, hnew, Kind.interfaceSupertypes, TypeExpr.isClass, TypeExpr.simpleName,
          TypeExpr.simple, Role.base, hsame]
      · simp [Role.of?, hnew, Kind.interfaceSupertypes, TypeExpr.isClass, TypeExpr.simpleName,
          TypeExpr.simple, Role.base, hsame, Ne.symm hsame]

theorem Wired.kind_declaration {s : Source} {name : String} (h : c.Wired s role name u)
    (hs : s.tree.WellFormed) (hc : c.Declared s.tree) {d : NodeId} (hd : d ∈ s.tree.declarations) :
    u.kind d = s.tree.kind d := by
  refine h.kind_eq (hs.lt_size_of_declared hd) ?_
  -- the base class hangs below the class of the component, which is not the file
  rintro rfl
  have hparent := hs.mem_children_iff.mp (Tree.mem_children_of_significant hd)
  have heq := (hs.mem_children_iff.mp hc.mem_base).symm.trans hparent
  exact hs.ne_root_of_declared hc.mem_declarations (Option.some.inj heq)

/-- The new interface is found by its name just when the name has no dot and no interface before it
has the name. -/
theorem Wired.declaration?_iff {s : Source} {name : String} (h : c.Wired s role name u)
    (hs : s.tree.WellFormed) (hc : c.Declared s.tree) :
    u.declaration? (lastSegment name) Kind.isInterface = some s.tree.size ↔
      '.' ∉ name.toList ∧ ∀ d ∈ s.tree.declarations.takeWhile (· ≠ c.schemaPlace s role),
        (s.tree.kind d).isInterface = true → s.tree.name? d ≠ some name := by
  obtain ⟨before, after, hbefore, hafter⟩ := h.declarations_eq
  have hnodup : s.tree.declarations.Nodup := (hs.nodup_children s.tree.root).filter _
  have hplace : c.schemaPlace s role ∉ before := by
    rw [hbefore] at hnodup
    exact fun hmem => (List.nodup_append.mp hnodup).2.2 _ hmem _ List.mem_cons_self rfl
  have htake : s.tree.declarations.takeWhile (· ≠ c.schemaPlace s role) = before := by
    rw [hbefore, List.takeWhile_append_of_pos]
    · simp
    · intro d hd
      have hne : d ≠ c.schemaPlace s role := fun heq => hplace (heq ▸ hd)
      simpa using hne
  have hdeclared : ∀ d ∈ before, d ∈ s.tree.declarations := by
    intro d hd
    rw [hbefore]
    exact List.mem_append_left _ hd
  have hnew : s.tree.size ∉ before := fun hmem =>
    Nat.lt_irrefl _ (hs.lt_size_of_declared (hdeclared _ hmem))
  have hkind : ∀ d ∈ before, u.kind d = s.tree.kind d := fun d hd =>
    h.kind_declaration hs hc (hdeclared d hd)
  have hname : u.name? s.tree.size = some name := by
    rw [Tree.name?, h.interface.kind_eq]
    rfl
  have hnone (hplain : lastSegment name = name) :
      (before.find? fun d => u.name? d == some (lastSegment name) && (u.kind d).isInterface) =
          none ↔
        ∀ d ∈ before, (s.tree.kind d).isInterface = true → s.tree.name? d ≠ some name := by
    rw [List.find?_eq_none, hplain]
    refine forall₂_congr fun d hd => ?_
    rw [Tree.name?, Tree.name?, hkind d hd, Bool.and_eq_true, beq_iff_eq]
    tauto
  rw [Tree.declaration?, hafter, List.find?_append, htake, ← lastSegment_eq_self_iff]
  constructor
  · intro hfound
    cases hfirst : before.find? fun d => u.name? d == some (lastSegment name) &&
        (u.kind d).isInterface with
    | some d =>
        rw [hfirst, Option.some_or] at hfound
        exact absurd (Option.some.inj hfound ▸ List.mem_of_find?_eq_some hfirst) hnew
    | none =>
        rw [hfirst, Option.none_or] at hfound
        have htest := List.find?_some hfound
        rw [hname, Bool.and_eq_true, beq_iff_eq] at htest
        have hplain : lastSegment name = name := (Option.some.inj htest.1).symm
        exact ⟨hplain, (hnone hplain).mp hfirst⟩
  · rintro ⟨hplain, hother⟩
    rw [(hnone hplain).mpr hother, Option.none_or, List.find?_cons_of_pos]
    rw [hname, h.interface.kind_eq, hplain]
    simp [Kind.isInterface]

/-- **When a new interface is found**: the component has to name it, and the name has to mean it. -/
theorem Wired.schema?_iff {s : Source} {name : String}
    (h : c.Wired s role (name ++ role.suffix) u) (hs : s.tree.WellFormed)
    (hc : c.Declared s.tree) : c.schema? { s with tree := u } role =
      some { decl := s.tree.size, role } ↔ c.Findable s role name := by
  have hdeclaration := h.declaration?_iff hs hc
  have hrole := role_of_interface h.interface.kind_eq
  rw [Role.dot_mem_suffix] at hdeclaration
  have hsteps : c.schema? { s with tree := u } role =
      ((c.argument? s.tree role).map fun _ => TypeExpr.simple (name ++ role.suffix)).bind
        fun type =>
        (u.declaration? type.simpleName Kind.isInterface).bind fun decl =>
          (Schema.of? u s.framework decl).filter (·.role = role) := by
    rw [← h.argument?_eq]
    rfl
  rw [hsteps]
  cases hargument : c.argument? s.tree role with
  | none =>
      constructor
      · intro hfound
        cases hfound
      · intro hfindable
        have hsome := hfindable.argument
        rw [hargument] at hsome
        cases hsome
  | some type =>
      rw [Option.map_some, Option.bind_some]
      show (u.declaration? (lastSegment (name ++ role.suffix)) Kind.isInterface).bind _ = _ ↔ _
      constructor
      · intro hfound
        obtain ⟨decl, hdecl, hof⟩ := Option.bind_eq_some_iff.mp hfound
        obtain ⟨role', hrole', heq⟩ :=
          Option.map_eq_some_iff.mp (Option.filter_eq_some_iff.mp hof).1
        cases heq
        obtain ⟨hplain, hfirst⟩ := hdeclaration.mp hdecl
        exact ⟨by rw [hargument]; rfl, hplain, hrole.mp hrole', hfirst⟩
      · intro hfindable
        rw [hdeclaration.mpr ⟨hfindable.plain, hfindable.first⟩, Option.bind_some, Schema.of?,
          hrole.mpr hfindable.distinct]
        simp

/-! ## What a new interface is wired to -/

/-- A schema that is there is not created again. -/
theorem schema?_of_createSchema {id : NodeId}
    (hrun : Change.run (c.createSchema fw role) t = (.ok id, u)) :
    c.schema? { tree := t, framework := fw } role = none := by
  have hneed := Change.run_needAttached (t := t) c.decl
  cases hfound : c.schema? { tree := t, framework := fw } role with
  | none => rfl
  | some schema =>
      exfalso
      unfold createSchema at hrun
      by_cases hattached : t.attached c.decl = true
      · rw [if_pos hattached] at hneed
        rw [Change.run_bind_ok hneed, Change.run_bind_ok (Change.run_source fw)] at hrun
        dsimp only at hrun
        rw [hfound] at hrun
        cases hrun
      · rw [if_neg hattached] at hneed
        cases (Change.run_bind_error hneed _).symm.trans hrun

/-- **What a created interface is wired to.** The component finds the interface just when nothing
keeps it from that. The props are always the only parameter of the constructor, and the base class
is called with them just when it was called without arguments, or with them, before. -/
theorem createSchema_wires_iff {id : NodeId} (ht : t.WellFormed)
    (hclass : ofClass? t fw c.decl = some c) (htop : c.decl ∈ t.declarations)
    (hrun : Change.run (c.createSchema fw role) t = (.ok id, u)) :
    ∃ name, t.name? c.decl = some name ∧
      (c.schema? { tree := u, framework := fw } role = some { decl := id, role } ↔
        c.Findable { tree := t, framework := fw } role name) ∧
      (role = .props →
        (∃ p, u.parameters c.decl = [p] ∧ u.name? p = some propsParameterName ∧
          u.writtenType? p = some (.simple (name ++ role.suffix))) ∧
        (∃ type, u.kind c.base = .supertype type true) ∧
        (c.forwarded? u = some propsParameterName ↔
          (c.passesProps t = true → c.forwarded? t = some propsParameterName))) := by
  have hc := declared_of_ofClass? hclass htop
  obtain ⟨name, hname⟩ : ∃ name, t.name? c.decl = some name := by
    have hkind := hc.isClass
    cases hk : t.kind c.decl with
    | classDecl name => exact ⟨name, by rw [Tree.name?, hk]; rfl⟩
    | _ => simp [hk, Kind.isClass] at hkind
  obtain ⟨v, hrun', hwired, hprops⟩ :=
    run_createSchema ht hclass htop hname (schema?_of_createSchema hrun)
  obtain ⟨rfl, rfl⟩ : t.size = id ∧ v = u := by
    simpa using hrun'.symm.trans hrun
  refine ⟨name, hname, hwired.schema?_iff ht hc, fun hrole => ?_⟩
  obtain ⟨w, hw, hpasses, hforwarded, hforwards⟩ := hprops hrole
  obtain ⟨type, call, hbase⟩ := kind_base hw.component_eq
  refine ⟨hforwards.takes.parameters_eq (hwired.declared htop).isClass,
    ⟨type, hforwards.kind_base hbase⟩, ?_⟩
  rw [hforwards.forwarded?_eq hw.wellFormed, hpasses, hforwarded]
  by_cases hpassed : c.passesProps t = true
  · simp [hpassed]
  · simp [hpassed]

/-- A component `C` with the parameters of its constructor, which calls a given base class with the
arguments. Answers the class. -/
def withBase (base : TypeExpr) (parameters args : Draft (List NodeId)) : Draft NodeId := do
  let parameters ← parameters
  let args ← args
  let base ← Draft.supertype base (some args)
  let component ← Draft.classDecl "C" (some parameters) [base] []
  Draft.declare component

/-- The class `C(props) : RComponent<RProps>(props)`. -/
def passingProps : Draft NodeId :=
  withBase (.generic "RComponent" [.simple "RProps"])
    (do return [← Draft.parameter "props" none none]) (do return [← Draft.reference "props"])

/-- The component of such a file, with its props created. -/
theorem createSchema_wires_iff_withBase :
    let t := (passingProps.run (Tree.ofFile "F")).2
    let c : Component := { decl := 4, base := 3 }
    let u := (Change.run (c.createSchema {} .props) t).2
    t.WellFormed ∧ ofClass? t {} c.decl = some c ∧ c.decl ∈ t.declarations ∧
      Change.run (c.createSchema {} .props) t = (.ok 6, u) ∧
      c.schema? { tree := u, framework := {} } .props = some { decl := 6, role := .props } ∧
      (∃ p, u.parameters c.decl = [p] ∧ u.name? p = some "props" ∧
        u.writtenType? p = some (.simple "CProps")) ∧
      c.forwarded? u = some "props" := by
  intro t c u
  have hfacts : t.WellFormed ∧ ofClass? t {} c.decl = some c ∧ c.decl ∈ t.declarations ∧
      (Change.run (c.createSchema {} .props) t).1 = .ok 6 ∧ t.name? c.decl = some "C" ∧
      (c.argument? t .props).isSome = true ∧ t.declarations = [c.decl] ∧
      (t.kind c.decl).isInterface = false ∧ c.forwarded? t = some "props" := by decide +kernel
  obtain ⟨ht, hclass, htop, hok, hname, hargument, hdeclarations, hkind, hforwarded⟩ := hfacts
  have hrun : Change.run (c.createSchema {} .props) t = (.ok 6, u) := by rw [← hok]
  obtain ⟨name, hname', hschema, hprops⟩ := createSchema_wires_iff ht hclass htop hrun
  cases hname'.symm.trans hname
  obtain ⟨hparameters, -, hpassed⟩ := hprops rfl
  refine ⟨ht, hclass, htop, hrun, hschema.mpr ⟨hargument, by decide, by decide, ?_⟩, hparameters,
    hpassed.mpr fun _ => hforwarded⟩
  intro d hd hinterface
  have hmem := (List.takeWhile_prefix _).subset hd
  rw [hdeclarations, List.mem_singleton] at hmem
  rw [hmem, hkind] at hinterface
  cases hinterface

/-- The class `C() : RComponent()`. -/
def untypedBase : Draft NodeId := withBase (.simple "RComponent") (pure []) (pure [])

/-- The class `C(other: X) : RComponent<RProps, RState>(other)`. -/
def otherArgument : Draft NodeId :=
  withBase (.generic "RComponent" [.simple "RProps", .simple "RState"])
    (do return [← Draft.parameter "other" (some (.simple "X")) none])
    (do return [← Draft.reference "other"])

/-- An interface `CProps` of no use as props, and the class `C() : RComponent<RProps, RState>()`
behind it. -/
def takenName : Draft NodeId := do
  let _ ← Draft.declare (← Draft.interface "CProps" [] [])
  withBase (.generic "RComponent" [.simple "RProps", .simple "RState"]) (pure []) (pure [])

/-- A created interface is not always wired in. A base class without arguments does not name it, an
argument of the base class that was there stays in the place of the props, and an interface of the
same name that stands in front is found instead. -/
theorem created_not_wired :
    let t₁ := (untypedBase.run (Tree.ofFile "F")).2
    let t₂ := (otherArgument.run (Tree.ofFile "F")).2
    let t₃ := (takenName.run (Tree.ofFile "F")).2
    let c₁ : Component := { decl := 2, base := 1 }
    let c₂ : Component := { decl := 5, base := 4 }
    let c₃ : Component := { decl := 3, base := 2 }
    let u₁ := (Change.run (c₁.createSchema {} .state) t₁).2
    let u₂ := (Change.run (c₂.createSchema {} .props) t₂).2
    let u₃ := (Change.run (c₃.createSchema {} .props) t₃).2
    (t₁.WellFormed ∧ ofClass? t₁ {} c₁.decl = some c₁ ∧ c₁.decl ∈ t₁.declarations ∧
      (Change.run (c₁.createSchema {} .state) t₁).1 = .ok 4 ∧
      c₁.schema? { tree := u₁, framework := {} } .state = none) ∧
    (t₂.WellFormed ∧ ofClass? t₂ {} c₂.decl = some c₂ ∧ c₂.decl ∈ t₂.declarations ∧
      (Change.run (c₂.createSchema {} .props) t₂).1 = .ok 7 ∧ c₂.forwarded? u₂ = some "other") ∧
    t₃.WellFormed ∧ ofClass? t₃ {} c₃.decl = some c₃ ∧ c₃.decl ∈ t₃.declarations ∧
      (Change.run (c₃.createSchema {} .props) t₃).1 = .ok 5 ∧
      c₃.schema? { tree := u₃, framework := {} } .props = none := by
  decide +kernel

end Component

end ComponentAudit
