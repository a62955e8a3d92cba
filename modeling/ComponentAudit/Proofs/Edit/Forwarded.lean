import ComponentAudit.Proofs.Audit.Applied
import ComponentAudit.Proofs.Edit.Effect

set_option autoImplicit false

/-! # Handing the props on

A component that takes its props gets a new constructor with the props as its only parameter. Its
base class is called with a reference to them, unless it is called with an argument already
(`Component.Forwards`). Everything else in the file stays as it was.

Main statements: `Component.forwards_passProps` and `Component.passes_of_passProps`.
-/

namespace ComponentAudit

/-! ## Calling the base class -/

namespace Tree

variable {t : Tree}

/-- A supertype made a call with one argument that hung nowhere. -/
theorem callWith_one (ht : t.WellFormed) {entry arg : NodeId} {type : TypeExpr} {call : Bool}
    (hkind : t.kind entry = .supertype type call) (hlt : arg < t.size) (hfree : t.parent arg = none)
    (hnot : ¬ t.Under entry arg) :
    (t.callWith entry [arg]).WellFormed ∧ (t.callWith entry [arg]).root = t.root ∧
      (t.callWith entry [arg]).size = t.size ∧
      ∀ n, (t.callWith entry [arg]).kind n =
          (if n = entry then .supertype type true else t.kind n) ∧
        (t.callWith entry [arg]).children n = if n = entry then [arg] else t.children n := by
  have hentry : entry < t.size := by
    refine Nat.lt_of_not_le fun hle => ?_
    cases (kind_of_le hle).symm.trans hkind
  have hcall : t.makeCall entry = t.setKind entry (.supertype type true) := by
    rw [makeCall, hkind]
  have ht' : (t.setKind entry (.supertype type true)).WellFormed := ht.setKind _ _
  generalize hv : (t.children entry).foldl detach (t.setKind entry (.supertype type true)) = v
  have hrun : t.callWith entry [arg] = v.appendChild entry arg := by
    rw [callWith, hcall, children_setKind, hv]
    rfl
  obtain ⟨hsize, hroot, hnode⟩ := foldl_detach ht' (t.children entry)
  rw [hv] at hsize hroot hnode
  rw [size_setKind] at hsize
  have hparent (n : NodeId) : v.parent n = if n ∈ t.children entry then none else t.parent n := by
    rw [(hnode n).2.1, parent_setKind]
  have hfree' : v.parent arg = none := by rw [hparent, hfree, ite_self]
  have hvt : v.WellFormed := by
    rw [← hv]
    exact WellFormed.foldl_detach ht' _
  rw [hrun]
  refine ⟨?_, ?_, ?_, fun n => ⟨?_, ?_⟩⟩
  · refine hvt.appendChild (hsize ▸ hlt) (hsize ▸ hentry) fun hunder => hnot ?_
    refine Relation.ReflTransGen.mono (fun a b hab => ?_) _ _ hunder
    have hab : v.parent a = some b := hab
    rw [hparent] at hab
    exact (Option.ite_none_left_eq_some.mp hab).2
  · rw [root_appendChild, hroot]
    rfl
  · rw [size_appendChild, hsize]
  · rw [kind_appendChild, (hnode n).1, kind_setKind]
    by_cases hn : n = entry
    · rw [if_pos ⟨hn, hn ▸ hentry⟩, if_pos hn]
    · rw [if_neg (fun h => hn h.1), if_neg hn]
  · rw [children_appendChild, detach_of_parent_none hfree', (hnode n).2.2, children_setKind]
    by_cases hn : n = entry
    · subst hn
      rw [if_pos ⟨rfl, by simpa [hsize] using hentry⟩, if_pos rfl]
      simp
    · rw [if_neg (fun h => hn h.1), if_neg hn]
      -- a child of another node is no child of the supertype
      refine List.filter_eq_self.mpr fun c hc => decide_eq_true fun hc' => hn ?_
      exact Option.some.inj ((ht.mem_children_iff.mp hc).symm.trans (ht.mem_children_iff.mp hc'))

end Tree

/-! ## The new constructor -/

namespace Component

variable {t u : Tree} {fw : Framework} {c : Component}

/-- Dropping the constructor keeps the supertypes. -/
theorem run_dropConstructor (ht : t.WellFormed) (c : Component) :
    ∃ u : Tree, c.dropConstructor.run t = ((), u) ∧ t.Changed c.decl u ∧ u.root = t.root ∧
      u.supertypes c.decl = t.supertypes c.decl := by
  have hget : (get : Draft Tree).run t = (t, t) := rfl
  unfold dropConstructor
  rw [Draft.run_bind, hget]
  dsimp only
  cases hlist : t.parameterList? c.decl with
  | none => exact ⟨t, rfl, ⟨ht, Nat.le_refl _, fun _ => rfl, fun _ _ => rfl⟩, rfl, rfl⟩
  | some list =>
      obtain ⟨-, hfind⟩ := Option.ite_none_right_eq_some.mp hlist
      have hkind : t.kind list = .parameterList := by simpa using List.find?_some hfind
      have hparent := ht.mem_children_iff.mp (List.mem_of_find?_eq_some hfind)
      refine ⟨t.detach list, rfl, ht.changed_detach hparent, t.root_detach list, ?_⟩
      rw [Tree.supertypes, ht.children_detach, List.filter_filter, Tree.supertypes]
      refine List.filter_congr fun n _ => ?_
      rw [t.kind_detach list]
      by_cases hn : n = list
      · rw [hn, hkind]
        rfl
      · simp [hn]

/-- A new parameter list with the props as the only parameter. -/
theorem drafted_constructor (ht : t.WellFormed) (props : TypeExpr) :
    ∃ parameter type list u v, (Draft.parameter propsParameterName (some props) none).run t =
        (parameter, u) ∧ (Draft.parameterList [parameter]).run u = (list, v) ∧
      t.Grown [] v ∧ t.size ≤ list ∧ v.parent list = none ∧
      v.Built list .parameterList [parameter] ∧
      v.Built parameter (.parameter propsParameterName none) [type] ∧
      v.Built type (.typeRef props) [] := by
  obtain ⟨cs, hparameter, hannotates⟩ :=
    Tree.drafted_parameter ht propsParameterName (some props) none
  obtain ⟨type, rfl, htype⟩ := hannotates
  have hlist := Tree.drafted_branch hparameter.grown.wellFormed .parameterList hparameter.spare
  refine ⟨_, type, _, _, _, rfl, rfl, ?_, ?_, hlist.free, hlist.built,
    hparameter.built.grown hlist.grown, htype.grown hlist.grown⟩
  · refine hparameter.grown.trans hlist.grown fun n hn => .inr ?_
    rw [List.mem_singleton.mp hn]
    exact hparameter.new
  · exact Nat.le_trans hparameter.grown.size_le hlist.new

/-- Whether the props are the only parameter of the constructor. -/
def TakesProps (c : Component) (t : Tree) (props : TypeExpr) : Prop :=
  ∃ list parameter type rest, t.children c.decl = list :: rest ∧
    t.Built list .parameterList [parameter] ∧
    t.Built parameter (.parameter propsParameterName none) [type] ∧ t.Built type (.typeRef props) []

/-- The parameter that takes the props. -/
theorem TakesProps.parameters_eq {props : TypeExpr} (h : c.TakesProps t props)
    (hclass : (t.kind c.decl).isClass = true) :
    ∃ p, t.parameters c.decl = [p] ∧ t.name? p = some propsParameterName ∧
      t.writtenType? p = some props := by
  obtain ⟨list, p, type, rest, hchildren, hlist, hp, htype⟩ := h
  have hfound : t.parameterList? c.decl = some list := by
    simp [Tree.parameterList?, hclass, Tree.child?, hchildren, hlist.kind_eq]
  refine ⟨p, ?_, ?_, ?_⟩
  · simp [Tree.parameters, hfound, hlist.children_eq, hp.kind_eq, Kind.isParameter]
  · rw [Tree.name?, hp.kind_eq]
    rfl
  · simp [Tree.writtenType?, Tree.typeRef?, Tree.child?, hp.children_eq, htype.kind_eq,
      Kind.isTypeRef, Kind.writtenType?]

/-- What passing the props does before it looks at the base class: it replaces the constructor,
which leaves the supertypes as they were. -/
theorem run_passProps_constructor (ht : t.WellFormed) (hc : c.Declared t) (props : TypeExpr) :
    ∃ v : Tree, Change.run (c.passProps props) t =
        (.ok (), if c.passesProps t then v
          else (v.push (.reference propsParameterName)).callWith c.base [v.size]) ∧
      t.Changed c.decl v ∧ v.root = t.root ∧ v.supertypes c.decl = t.supertypes c.decl ∧
      c.TakesProps v props := by
  obtain ⟨t₁, hdrop, hchanged, hroot, hsuper⟩ := run_dropConstructor ht c
  have ht₁ := hchanged.wellFormed
  obtain ⟨parameter, type, list, t₂, t₃, hparameter, hlist, hgrown, hnew, hfree, hbuilt, hp, hty⟩ :=
    drafted_constructor ht₁ props
  have hdecl : c.decl < t.size := ht.lt_size_of_declared hc.mem_declarations
  have hdecl₁ : c.decl < t₁.size := Nat.lt_of_lt_of_le hdecl hchanged.size_le
  have hdecl₃ : c.decl < t₃.size := Nat.lt_of_lt_of_le hdecl₁ hgrown.size_le
  have hnot : ¬ t₃.Under c.decl list := hgrown.not_under ht₁ hdecl₁ hnew
  have hinserted :=
    hgrown.wellFormed.changed_insertChild hdecl₃ hbuilt.lt_size hfree hnot 0
  have hchildren : (t₃.insertChild c.decl 0 list).children c.decl =
      list :: t₁.children c.decl := by
    rw [Tree.children_insertChild_of_free hdecl₃ hfree, if_pos rfl, hgrown.children_eq hdecl₁]
    rfl
  have hwhole : t.Changed c.decl (t₃.insertChild c.decl 0 list) :=
    (hchanged.trans hgrown.changed).trans hinserted
  have hclass : (t₃.kind c.decl).isClass = true := by
    rw [hgrown.kind_eq hdecl₁, hchanged.kind_eq hdecl, hc.isClass]
  have hkeep {n : NodeId} {k : Kind} {cs : List NodeId} (hk : k.isClass = false)
      (h : t₃.Built n k cs) : (t₃.insertChild c.decl 0 list).Built n k cs := by
    refine hinserted.built h fun heq => ?_
    rw [heq, hk] at hclass
    cases hclass
  refine ⟨t₃.insertChild c.decl 0 list, ?_, hwhole, ?_, ?_, ?_⟩
  · have hneed : Change.run (Change.needAttached c.decl) t = (.ok (), t) := by
      rw [Change.run_needAttached, Tree.attached_declaration ht hc.mem_declarations]
      rfl
    have hinsert : (Draft.insertChild c.decl 0 list).run t₃ =
        ((), t₃.insertChild c.decl 0 list) := rfl
    generalize t₃.insertChild c.decl 0 list = v at hinsert ⊢
    unfold passProps
    rw [Change.run_bind_ok hneed, Change.run_bind_ok (Change.run_get t),
      Change.run_bind_ok (Change.run_draft hdrop),
      Change.run_bind_ok (Change.run_draft hparameter),
      Change.run_bind_ok (Change.run_draft hlist), Change.run_bind_ok (Change.run_draft hinsert)]
    cases c.passesProps t <;> rfl
  · rw [Tree.root_insertChild, hgrown.root_eq, hroot]
  · have hkindList : (t₃.insertChild c.decl 0 list).kind list = .parameterList := by
      rw [Tree.kind_insertChild, hbuilt.kind_eq]
    rw [Tree.supertypes, hchildren, List.filter_cons_of_neg
      (by rw [hkindList]; simp [Kind.isSupertype]), ← hsuper]
    refine List.filter_congr fun n hn => ?_
    have hlt := Tree.lt_size_of_parent (ht₁.mem_children_iff.mp hn)
    rw [hinserted.kind_eq (Nat.lt_of_lt_of_le hlt hgrown.size_le), hgrown.kind_eq hlt]
  · exact ⟨list, parameter, type, _, hchildren, hkeep rfl hbuilt, hkeep rfl hp, hkeep rfl hty⟩

/-! ## The whole change -/

/-- The name that the base class is called with. -/
def forwarded? (c : Component) (t : Tree) : Option String :=
  (t.significant c.base).head?.bind t.referenceName?

/-- Whether a tree comes from another one by making a component take its props and hand them on. -/
structure Forwards (c : Component) (t : Tree) (props : TypeExpr) (u : Tree) : Prop where
  wellFormed : u.WellFormed
  root_eq : u.root = t.root
  size_le : t.size ≤ u.size
  kind_eq : ∀ {n : NodeId}, n < t.size → n ≠ c.base → u.kind n = t.kind n
  kind_base : ∀ {type : TypeExpr} {call : Bool}, t.kind c.base = .supertype type call →
    u.kind c.base = .supertype type true
  children_eq : ∀ {n : NodeId}, n < t.size → n ≠ c.decl → n ≠ c.base →
    u.children n = t.children n
  supertypes_eq : u.supertypes c.decl = t.supertypes c.decl
  takes : c.TakesProps u props
  /-- Arguments that were there stay. -/
  arguments : if c.passesProps t then u.children c.base = t.children c.base
    else ∃ a, u.children c.base = [a] ∧ u.kind a = .reference propsParameterName

/-- A base class that has an argument stays as it is. -/
theorem forwards_of_passes (ht : t.WellFormed) (hc : c.Declared t) {v : Tree} {props : TypeExpr}
    (hpasses : c.passesProps t = true) (hchanged : t.Changed c.decl v) (hroot : v.root = t.root)
    (hsuper : v.supertypes c.decl = t.supertypes c.decl) (htakes : c.TakesProps v props) :
    c.Forwards t props v := by
  have hparent := ht.mem_children_iff.mp hc.mem_base
  have hlt : c.base < t.size := Tree.lt_size_of_parent hparent
  have hne : c.base ≠ c.decl := fun heq => ht.acyclic c.decl (.single (heq ▸ hparent))
  exact {
    wellFormed := hchanged.wellFormed
    root_eq := hroot
    size_le := hchanged.size_le
    kind_eq := fun hn _ => hchanged.kind_eq hn
    kind_base := by
      intro type call hbase
      rw [passesProps, hbase, Bool.and_eq_true] at hpasses
      rw [hchanged.kind_eq hlt, hbase, hpasses.1]
    children_eq := fun hn hdecl _ => hchanged.children_eq hn hdecl
    supertypes_eq := hsuper
    takes := htakes
    arguments := by
      rw [if_pos hpasses]
      exact hchanged.children_eq hlt hne }

/-- A base class without arguments is called with the props. -/
theorem forwards_callWith (ht : t.WellFormed) (hc : c.Declared t) {type : TypeExpr} {call : Bool}
    (hbase : t.kind c.base = .supertype type call) {v : Tree} {props : TypeExpr}
    (hpasses : ¬ c.passesProps t = true) (hchanged : t.Changed c.decl v) (hroot : v.root = t.root)
    (hsuper : v.supertypes c.decl = t.supertypes c.decl) (htakes : c.TakesProps v props) :
    c.Forwards t props ((v.push (.reference propsParameterName)).callWith c.base [v.size]) := by
  have hparent := ht.mem_children_iff.mp hc.mem_base
  have hlt : c.base < t.size := Tree.lt_size_of_parent hparent
  have hne : c.base ≠ c.decl := fun heq => ht.acyclic c.decl (.single (heq ▸ hparent))
  have hv := hchanged.wellFormed
  have hsize := hchanged.size_le
  have hltV : c.base < v.size := Nat.lt_of_lt_of_le hlt hsize
  have hkindV : v.kind c.base = .supertype type call := by rw [hchanged.kind_eq hlt, hbase]
  have hleaf : v.Drafted [] (v.size, v.push (.reference propsParameterName))
      (.reference propsParameterName) [] := Tree.drafted_leaf hv _
  have hgrown : v.Grown [] (v.push (.reference propsParameterName)) := hleaf.grown
  obtain ⟨hut, hrootU, hsizeU, hnode⟩ := Tree.callWith_one hgrown.wellFormed
    (by rw [hgrown.kind_eq hltV, hkindV]) hleaf.built.lt_size hleaf.free
    (hgrown.not_under hv hltV hleaf.new)
  have hkindArg := hleaf.built.kind_eq
  have hsizeG := hgrown.size_le
  dsimp only at hut hrootU hsizeU hnode hkindArg
  generalize (v.push (.reference propsParameterName)).callWith c.base [v.size] = u
    at hut hrootU hsizeU hnode ⊢
  -- the call changes the base class only
  have hkindU {n : NodeId} (hn : n < v.size) (hnb : n ≠ c.base) : u.kind n = v.kind n := by
    rw [(hnode n).1, if_neg hnb, hgrown.kind_eq hn]
  have hchildrenU {n : NodeId} (hn : n < v.size) (hnb : n ≠ c.base) :
      u.children n = v.children n := by
    rw [(hnode n).2, if_neg hnb, hgrown.children_eq hn]
  have hbaseU : u.kind c.base = .supertype type true := by rw [(hnode _).1, if_pos rfl]
  have hdecl : c.decl < v.size := Nat.lt_of_lt_of_le (ht.lt_size hparent) hsize
  have hkeep {n : NodeId} {k : Kind} {cs : List NodeId} (hk : k.isSupertype = false)
      (h : v.Built n k cs) : u.Built n k cs := by
    have hnb : n ≠ c.base := by
      rintro rfl
      rw [← h.kind_eq, hkindV] at hk
      cases hk
    refine ⟨?_, by rw [hkindU h.lt_size hnb, h.kind_eq],
      by rw [hchildrenU h.lt_size hnb, h.children_eq]⟩
    have hlt' := h.lt_size
    lia
  exact {
    wellFormed := hut
    root_eq := by rw [hrootU, hgrown.root_eq, hroot]
    size_le := by lia
    kind_eq := fun hn hnb => by
      rw [hkindU (Nat.lt_of_lt_of_le hn hsize) hnb, hchanged.kind_eq hn]
    kind_base := by
      intro type' call' h
      cases hbase.symm.trans h
      exact hbaseU
    children_eq := fun hn hdecl hnb => by
      rw [hchildrenU (Nat.lt_of_lt_of_le hn hsize) hnb, hchanged.children_eq hn hdecl]
    supertypes_eq := by
      rw [← hsuper, Tree.supertypes, Tree.supertypes, hchildrenU hdecl hne.symm]
      refine List.filter_congr fun n hn => ?_
      by_cases hnb : n = c.base
      · rw [hnb, hbaseU, hkindV]
        rfl
      · rw [hkindU (Tree.lt_size_of_parent (hv.mem_children_iff.mp hn)) hnb]
    takes := by
      obtain ⟨list, p, ref, rest, hchildren, hlist, hp, href⟩ := htakes
      exact ⟨list, p, ref, rest, by rw [hchildrenU hdecl hne.symm, hchildren], hkeep rfl hlist,
        hkeep rfl hp, hkeep rfl href⟩
    arguments := by
      rw [if_neg hpasses]
      refine ⟨v.size, by rw [(hnode _).2, if_pos rfl], ?_⟩
      rw [(hnode _).1, if_neg (Nat.ne_of_gt hltV), hkindArg] }

/-- **A component can always take its props.** -/
theorem forwards_passProps (ht : t.WellFormed) (hc : c.Declared t) {type : TypeExpr} {call : Bool}
    (hbase : t.kind c.base = .supertype type call) (props : TypeExpr) :
    ∃ u, Change.run (c.passProps props) t = (.ok (), u) ∧ c.Forwards t props u := by
  obtain ⟨v, hrun, hchanged, hroot, hsuper, htakes⟩ := run_passProps_constructor ht hc props
  refine ⟨_, hrun, ?_⟩
  by_cases hpasses : c.passesProps t = true
  · rw [if_pos hpasses]
    exact forwards_of_passes ht hc hpasses hchanged hroot hsuper htakes
  · rw [if_neg hpasses]
    exact forwards_callWith ht hc hbase hpasses hchanged hroot hsuper htakes

theorem argument?_of_kind {type : TypeExpr} {call : Bool}
    (h : t.kind c.base = .supertype type call) (role : Role) :
    c.argument? t role = type.args[role.argumentIndex]? := by
  simp [argument?, baseType?, Tree.supertype?, h]

/-- The base class of a component is written as a supertype. -/
theorem kind_base (h : ofClass? t fw c.decl = some c) :
    ∃ type call, t.kind c.base = .supertype type call := by
  obtain ⟨-, h⟩ := Option.ite_none_right_eq_some.mp h
  obtain ⟨base, hfound, hbase⟩ := Option.map_eq_some_iff.mp h
  obtain rfl : base = c.base := congrArg Component.base hbase
  have htest := List.find?_some hfound
  unfold Tree.supertype? at htest
  cases hk : t.kind c.base with
  | supertype type call => exact ⟨type, call, rfl⟩
  | _ => simp [hk] at htest

/-- A class with the same supertypes, of the same names, is the same component. -/
theorem ofClass?_congr (hclass : (u.kind c.decl).isClass = (t.kind c.decl).isClass)
    (hsupertypes : u.supertypes c.decl = t.supertypes c.decl)
    (htypes : ∀ n ∈ t.supertypes c.decl,
      (u.supertype? n).map (·.name) = (t.supertype? n).map (·.name)) :
    ofClass? u fw c.decl = ofClass? t fw c.decl := by
  have htest (type? : Option TypeExpr) : (type?.any fun type => type.isClass fw.componentBase) =
      (type?.map (·.name)).any fun name => lastSegment name == lastSegment fw.componentBase := by
    cases type? <;> rfl
  rw [ofClass?, ofClass?, hclass, hsupertypes,
    List.find?_congr fun n hn => by rw [htest, htypes n hn, ← htest]]

namespace Forwards

variable {props : TypeExpr} (h : c.Forwards t props u)

include h

/-- The class stays the component it was. -/
theorem ofClass?_eq (ht : t.WellFormed) (hc : c.Declared t)
    (hclass : ofClass? t fw c.decl = some c) : ofClass? u fw c.decl = some c := by
  have hparent := ht.mem_children_iff.mp hc.mem_base
  have hne : c.decl ≠ c.base := fun heq => ht.acyclic c.base (.single (heq ▸ hparent))
  obtain ⟨type, call, hbase⟩ := Component.kind_base hclass
  rw [← hclass]
  refine ofClass?_congr (by rw [h.kind_eq (ht.lt_size hparent) hne]) h.supertypes_eq fun n hn => ?_
  unfold Tree.supertype?
  by_cases hnb : n = c.base
  · rw [hnb, h.kind_base hbase, hbase]
  · have hparent := ht.mem_children_iff.mp (List.mem_filter.mp hn).1
    rw [h.kind_eq (Tree.lt_size_of_parent hparent) hnb]

theorem argument?_eq {type : TypeExpr} {call : Bool} (hbase : t.kind c.base = .supertype type call)
    (role : Role) : c.argument? u role = c.argument? t role := by
  rw [argument?_of_kind (h.kind_base hbase), argument?_of_kind hbase]

theorem declarations_eq (ht : t.WellFormed) (hc : c.Declared t) :
    u.declarations = t.declarations := by
  have hparent := ht.mem_children_iff.mp hc.mem_base
  have hdecl := hc.parent_decl ht
  have hroot : t.root ≠ c.decl := (ht.ne_root_of_declared hc.mem_declarations).symm
  have hbase : t.root ≠ c.base := by
    intro heq
    rw [heq] at hdecl
    exact ht.acyclic c.base (.tail (.single hparent) hdecl)
  rw [Tree.declarations, Tree.significant, h.root_eq, h.children_eq (ht.lt_size hdecl) hroot hbase]
  refine List.filter_congr fun n hn => ?_
  have hn' := ht.mem_children_iff.mp hn
  rw [h.kind_eq (Tree.lt_size_of_parent hn')]
  rintro rfl
  exact hroot (Option.some.inj (hn'.symm.trans hparent))

/-- Arguments that the base class had are the same as before. -/
theorem significant_base (ht : t.WellFormed) (hpasses : c.passesProps t = true) :
    u.significant c.base = t.significant c.base ∧
      ∀ n ∈ t.significant c.base, u.kind n = t.kind n := by
  have harguments := h.arguments
  rw [if_pos hpasses] at harguments
  have hkind : ∀ n ∈ t.children c.base, u.kind n = t.kind n := by
    intro n hn
    have hparent := ht.mem_children_iff.mp hn
    refine h.kind_eq (Tree.lt_size_of_parent hparent) fun heq => ?_
    exact ht.acyclic c.base (.single (heq ▸ hparent))
  constructor
  · rw [Tree.significant, harguments, Tree.significant]
    exact List.filter_congr fun n hn => by rw [hkind n hn]
  · exact fun n hn => hkind n (Tree.mem_children_of_significant hn)

theorem passesProps_eq (ht : t.WellFormed) {type : TypeExpr} {call : Bool}
    (hbase : t.kind c.base = .supertype type call) : c.passesProps u = true := by
  rw [passesProps, h.kind_base hbase]
  by_cases hpasses : c.passesProps t = true
  · rw [(h.significant_base ht hpasses).1]
    rw [passesProps, hbase, Bool.and_eq_true] at hpasses
    simpa using hpasses.2
  · have harguments := h.arguments
    rw [if_neg hpasses] at harguments
    obtain ⟨a, hchildren, hkind⟩ := harguments
    simp [Tree.significant, hchildren, hkind, Kind.isTrivia]

/-- The base class gets the props just when it had no argument or had them already. -/
theorem forwarded?_eq (ht : t.WellFormed) : c.forwarded? u =
    if c.passesProps t then c.forwarded? t else some propsParameterName := by
  by_cases hpasses : c.passesProps t = true
  · obtain ⟨hsignificant, hkind⟩ := h.significant_base ht hpasses
    rw [if_pos hpasses, forwarded?, hsignificant, forwarded?]
    cases hhead : (t.significant c.base).head? with
    | none => rfl
    | some a =>
        show (u.kind a).referenceName? = (t.kind a).referenceName?
        rw [hkind a (List.mem_of_head? hhead)]
  · have harguments := h.arguments
    rw [if_neg hpasses] at harguments
    obtain ⟨a, hchildren, hkind⟩ := harguments
    rw [if_neg hpasses]
    simp [forwarded?, Tree.significant, hchildren, hkind, Kind.isTrivia, Tree.referenceName?,
      Kind.referenceName?]

end Forwards

/-- **A component that takes its props hands them on**, and stays the component it was. -/
theorem passes_of_passProps (ht : t.WellFormed) (hc : c.Declared t)
    (hclass : ofClass? t fw c.decl = some c) {props : TypeExpr}
    (hrun : Change.run (c.passProps props) t = (.ok (), u)) :
    ofClass? u fw c.decl = some c ∧ c.passesProps u = true := by
  obtain ⟨type, call, hbase⟩ := kind_base hclass
  obtain ⟨v, hrun', hforwards⟩ := forwards_passProps ht hc hbase props
  obtain rfl := (Prod.mk.inj (hrun'.symm.trans hrun)).2
  exact ⟨hforwards.ofClass?_eq ht hc hclass, hforwards.passesProps_eq ht hbase⟩

end Component

end ComponentAudit
