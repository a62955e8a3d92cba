import ComponentAudit.Proofs.Edit.Drop
import Mathlib.Data.List.Find

set_option autoImplicit false

/-! # The parts of a builder function

A builder function that can be synchronised has a parameter list and consists of a call with a
lambda behind it (`Builder.Parts`). Its edits happen below the list and below the block of the
lambda, so they keep these parts (`Builder.Parts.edited`) and what the component declares
(`Builder.Parts.schema?_eq`).

Main statement: `Builder.Parts.unused_of_dropped`. Once the parameters without a use are gone, all
that are left have one.
-/

namespace ComponentAudit

namespace Tree

namespace Edited

variable {t u v : Tree} {tops : List NodeId}

theorem not_loose_child (ht : t.WellFormed) {n c : NodeId} (hn : ¬ t.Loose tops n)
    (hnt : n ∉ tops) (hc : c ∈ t.children n) : ¬ t.Loose tops c := by
  intro hloose
  have hself : t.Edited tops t := Edited.refl ht
  rcases hself.loose_parent ht (ht.mem_children_iff.mp hc) hloose with h | h
  · exact hn h
  · exact hnt h

/-- Edits of an edited tree. -/
theorem trans (ht : t.WellFormed) (h : t.Edited tops u) (h' : u.Edited tops v) :
    t.Edited tops v := by
  -- what came to lie inside a top by the first edits was loose before
  have hloose {n : NodeId} (hn : ¬ t.Loose tops n) : ¬ u.Loose tops n := by
    rintro (hsize | ⟨top, htop, hinside⟩)
    · exact hn (.inl (Nat.le_trans h.size_le hsize))
    · refine hn ?_
      clear hn
      induction hinside using Relation.TransGen.head_induction_on with
      | single hp => exact h.loose_of_parent ht hp (.inr htop)
      | head hp _ ih => exact h.loose_of_parent ht hp (.inl ih)
  refine ⟨h'.wellFormed, h'.root_eq.trans h.root_eq, Nat.le_trans h.size_le h'.size_le, ?_, ?_, ?_⟩
  · intro n hn
    rw [h'.kind_eq (hloose hn), h.kind_eq hn]
  · intro n hn
    rw [h'.parent_eq (hloose hn), h.parent_eq hn]
  · intro n hn hnt
    rw [h'.children_eq (hloose hn) hnt, h.children_eq hn hnt]

variable (ht : t.WellFormed) (h : t.Edited tops u)

include ht h

theorem kind_child {n c : NodeId} (hn : ¬ t.Loose tops n) (hnt : n ∉ tops) (hc : c ∈ t.children n) :
    u.kind c = t.kind c :=
  h.kind_eq (not_loose_child ht hn hnt hc)

theorem significant_eq {n : NodeId} (hn : ¬ t.Loose tops n) (hnt : n ∉ tops) :
    u.significant n = t.significant n := by
  rw [significant, significant, h.children_eq hn hnt]
  exact List.filter_congr fun c hc => by rw [kind_child ht h hn hnt hc]

theorem child?_eq {n : NodeId} (hn : ¬ t.Loose tops n) (hnt : n ∉ tops) (test : Kind → Bool) :
    u.child? n test = t.child? n test := by
  rw [child?, child?, h.children_eq hn hnt]
  exact List.find?_congr fun c hc => by rw [kind_child ht h hn hnt hc]

end Edited

end Tree

/-! ## Parts -/

/-- The parts of a builder function: its parameter list, the call that it consists of, the lambda
behind the call and the block of the lambda. -/
structure Builder.Parts (b : Builder) (t : Tree) (list call lambda body : NodeId) : Prop where
  attached : t.attached b.function = true
  list_eq : t.parameterList? b.function = some list
  call_eq : t.functionBody? b.function = some call
  kind_call : t.kind call = .call
  lambda_eq : t.trailingLambda? call = some lambda
  body_eq : t.lambdaBody? lambda = some body

namespace Builder.Parts

variable {b : Builder} {t : Tree} {list call lambda body : NodeId}
  (h : b.Parts t list call lambda body)

include h

theorem kind_list : t.kind list = .parameterList := by
  obtain ⟨-, hfind⟩ := Option.ite_none_right_eq_some.mp h.list_eq
  simpa using List.find?_some hfind

theorem mem_list : list ∈ t.children b.function := by
  obtain ⟨-, hfind⟩ := Option.ite_none_right_eq_some.mp h.list_eq
  exact List.mem_of_find?_eq_some hfind

theorem mem_call : call ∈ t.children b.function := by
  obtain ⟨-, hfind⟩ := Option.ite_none_right_eq_some.mp h.call_eq
  exact Tree.mem_children_of_significant (List.mem_of_find?_eq_some hfind)

theorem kind_function : (t.kind b.function).isFunction = true :=
  (Option.ite_none_right_eq_some.mp h.call_eq).1

theorem lambda_spec : lambda ∈ t.children call ∧ t.kind lambda = .lambda := by
  obtain ⟨-, hfilter⟩ := Option.ite_none_right_eq_some.mp h.lambda_eq
  obtain ⟨hlast, hkind⟩ := Option.filter_eq_some_iff.mp hfilter
  exact ⟨List.mem_of_mem_tail (List.mem_of_getLast? hlast), by simpa using hkind⟩

theorem kind_body : t.kind body = .block := by
  obtain ⟨-, hfind⟩ := Option.ite_none_right_eq_some.mp h.body_eq
  simpa using List.find?_some hfind

theorem mem_body : body ∈ t.children lambda := by
  obtain ⟨-, hfind⟩ := Option.ite_none_right_eq_some.mp h.body_eq
  exact List.mem_of_find?_eq_some hfind

/-- A function has one block only. -/
theorem body_unique {list' call' lambda' body' : NodeId}
    (h' : b.Parts t list' call' lambda' body') : body' = body := by
  obtain rfl : call' = call := Option.some.inj (h'.call_eq.symm.trans h.call_eq)
  obtain rfl : lambda' = lambda := Option.some.inj (h'.lambda_eq.symm.trans h.lambda_eq)
  exact Option.some.inj (h'.body_eq.symm.trans h.body_eq)

/-! ## Where the parts stand -/

variable (ht : t.WellFormed)

include ht

theorem body_inside_function : t.Inside body b.function := by
  have h₁ := ht.mem_children_iff.mp h.mem_body
  have h₂ := ht.mem_children_iff.mp h.lambda_spec.1
  have h₃ := ht.mem_children_iff.mp h.mem_call
  exact .head h₁ (.head h₂ (.single h₃))

theorem list_inside_function : t.Inside list b.function := ht.inside_of_child h.mem_list

theorem body_not_under_list : ¬ t.Under body list := by
  -- from the block one comes to the lambda, the call and the function, which are all no lists
  have up {c p : NodeId} (hc : c ∈ t.children p) (hk : t.kind c ≠ .parameterList)
      (hunder : t.Under c list) : t.Under p list := by
    rcases Relation.ReflTransGen.cases_head hunder with rfl | ⟨q, hq, hunder⟩
    · exact absurd h.kind_list hk
    · obtain rfl : q = p := Option.some.inj (hq.symm.trans (ht.mem_children_iff.mp hc))
      exact hunder
  intro hunder
  have hunder := up h.mem_body (by rw [h.kind_body]; simp) hunder
  have hunder := up h.lambda_spec.1 (by rw [h.lambda_spec.2]; simp) hunder
  have hunder := up h.mem_call (by rw [h.kind_call]; simp) hunder
  exact ht.not_inside_of_under hunder (h.list_inside_function ht)

theorem list_not_under_body : ¬ t.Under list body := by
  intro hunder
  rcases Relation.ReflTransGen.cases_head hunder with heq | ⟨q, hq, hunder⟩
  · have := h.kind_list
    rw [heq, h.kind_body] at this
    cases this
  · have hparent := ht.mem_children_iff.mp h.mem_list
    obtain rfl : q = b.function := Option.some.inj (hq.symm.trans hparent)
    exact ht.not_inside_of_under hunder (h.body_inside_function ht)

/-- What is above the block stays where it is. -/
theorem not_loose_of_above {n : NodeId} (hn : t.Under body n) : ¬ t.Loose [list, body] n := by
  rintro (hsize | ⟨top, htop, hinside⟩)
  · have hlt : n < t.size := by
      rcases Relation.ReflTransGen.cases_tail hn with rfl | ⟨c, -, hc⟩
      · exact (h.body_inside_function ht).lt_size
      · exact ht.lt_size hc
    exact absurd hlt (Nat.not_lt_of_le hsize)
  · rcases List.mem_pair.mp htop with rfl | rfl
    · exact h.body_not_under_list ht (Relation.ReflTransGen.trans hn hinside.under)
    · exact ht.not_inside_of_under hn hinside

theorem not_loose_list : ¬ t.Loose [list, body] list := by
  rintro (hsize | ⟨top, htop, hinside⟩)
  · exact absurd (h.list_inside_function ht).lt_size (Nat.not_lt_of_le hsize)
  · rcases List.mem_pair.mp htop with rfl | rfl
    · exact ht.acyclic _ hinside
    · exact h.list_not_under_body ht hinside.under

theorem root_above : t.Under b.function t.root := ht.attached_iff.mp h.attached

theorem not_loose_root : ¬ t.Loose [list, body] t.root :=
  h.not_loose_of_above ht ((h.body_inside_function ht).under.trans (h.root_above ht))

theorem root_not_top : t.root ∉ [list, body] := by
  intro hmem
  rcases List.mem_pair.mp hmem with hroot | hroot
  · exact ht.not_inside_of_under (hroot ▸ h.root_above ht) (h.list_inside_function ht)
  · exact ht.not_inside_of_under (hroot ▸ h.root_above ht) (h.body_inside_function ht)

omit ht in
theorem not_top {n : NodeId} (hlist : t.kind n ≠ .parameterList) (hbody : t.kind n ≠ .block) :
    n ∉ [list, body] := by
  intro hmem
  rcases List.mem_pair.mp hmem with rfl | rfl
  · exact hlist h.kind_list
  · exact hbody h.kind_body

/-- **Edits below the list and the block keep the parts.** -/
theorem edited {u : Tree} (hu : t.Edited [list, body] u) : b.Parts u list call lambda body := by
  have hfun : ¬ t.Loose [list, body] b.function :=
    h.not_loose_of_above ht (h.body_inside_function ht).under
  have hcall : ¬ t.Loose [list, body] call :=
    h.not_loose_of_above ht (.head (ht.mem_children_iff.mp h.mem_body)
      (.single (ht.mem_children_iff.mp h.lambda_spec.1)))
  have hlambda : ¬ t.Loose [list, body] lambda :=
    h.not_loose_of_above ht (.single (ht.mem_children_iff.mp h.mem_body))
  have hfunTop : b.function ∉ [list, body] := by
    have := h.kind_function
    exact h.not_top (fun hk => by simp [hk, Kind.isFunction] at this)
      (fun hk => by simp [hk, Kind.isFunction] at this)
  have hcallTop : call ∉ [list, body] :=
    h.not_top (by rw [h.kind_call]; simp) (by rw [h.kind_call]; simp)
  have hlambdaTop : lambda ∉ [list, body] :=
    h.not_top (by rw [h.lambda_spec.2]; simp) (by rw [h.lambda_spec.2]; simp)
  -- each part is looked up from the one before, by kinds and children that the edits keep
  refine ⟨?_, ?_, ?_, ?_, ?_, ?_⟩
  · rw [hu.wellFormed.attached_iff, hu.root_eq, hu.under_iff ht hfun]
    exact h.root_above ht
  · rw [← h.list_eq, Tree.parameterList?, Tree.parameterList?, hu.kind_eq hfun,
      Tree.Edited.child?_eq ht hu hfun hfunTop]
  · rw [← h.call_eq, Tree.functionBody?, Tree.functionBody?, hu.kind_eq hfun,
      Tree.Edited.significant_eq ht hu hfun hfunTop]
    rw [List.find?_congr fun c hc => by
      rw [Tree.Edited.kind_child ht hu hfun hfunTop (Tree.mem_children_of_significant hc)]]
  · rw [hu.kind_eq hcall, h.kind_call]
  · obtain ⟨hkind, hfilter⟩ := Option.ite_none_right_eq_some.mp h.lambda_eq
    obtain ⟨hlast, -⟩ := Option.filter_eq_some_iff.mp hfilter
    rw [Tree.trailingLambda?, hu.kind_eq hcall, if_pos hkind, hu.children_eq hcall hcallTop]
    exact Option.filter_eq_some_iff.mpr ⟨hlast, by simp [hu.kind_eq hlambda, h.lambda_spec.2]⟩
  · rw [← h.body_eq, Tree.lambdaBody?, Tree.lambdaBody?, hu.kind_eq hlambda,
      Tree.Edited.child?_eq ht hu hlambda hlambdaTop]

end Builder.Parts

/-! ## What the component declares -/

/-- Whether a component is a class that the file declares. -/
structure Component.Declared (c : Component) (t : Tree) : Prop where
  mem_declarations : c.decl ∈ t.declarations
  isClass : (t.kind c.decl).isClass = true
  mem_base : c.base ∈ t.children c.decl

theorem Component.declared_of_ofClass? {t : Tree} {fw : Framework} {decl : NodeId} {c : Component}
    (h : ofClass? t fw decl = some c) (hdecl : decl ∈ t.declarations) : c.Declared t := by
  obtain ⟨hclass, h⟩ := Option.ite_none_right_eq_some.mp h
  obtain ⟨base, hbase, rfl⟩ := Option.map_eq_some_iff.mp h
  exact ⟨hdecl, hclass, (List.mem_filter.mp (List.mem_of_find?_eq_some hbase)).1⟩

theorem Component.decl_of_ofClass? {t : Tree} {fw : Framework} {decl : NodeId} {c : Component}
    (h : ofClass? t fw decl = some c) : c.decl = decl := by
  obtain ⟨-, h⟩ := Option.ite_none_right_eq_some.mp h
  obtain ⟨base, -, rfl⟩ := Option.map_eq_some_iff.mp h
  rfl

/-- What makes a call a construction. -/
theorem Construction.spec_of_ofCall? {s : Source} {call : NodeId} {c : Construction}
    (h : ofCall? s call = some c) :
    c.call = call ∧ s.tree.kind call = .call ∧ ∃ arg decl, s.classOf? arg = some decl ∧
      Component.ofClass? s.tree s.framework decl = some c.component := by
  unfold ofCall? at h
  obtain ⟨_, hcallee, h⟩ := Option.bind_eq_some_iff.mp h
  obtain ⟨arg, -, h⟩ := Option.bind_eq_some_iff.mp h
  obtain ⟨decl, hdecl, h⟩ := Option.bind_eq_some_iff.mp h
  obtain ⟨component, hclass, h⟩ := Option.bind_eq_some_iff.mp h
  obtain rfl := Option.some.inj h
  obtain ⟨callee, hcall, -⟩ :=
    Option.bind_eq_some_iff.mp (Option.ite_none_right_eq_some.mp hcallee).1
  exact ⟨rfl, (Option.ite_none_right_eq_some.mp hcall).1, arg, decl, hdecl, hclass⟩

/-- A component that is constructed is declared in the file. -/
theorem Construction.declared_of_ofCall? {s : Source} {call : NodeId} {c : Construction}
    (h : ofCall? s call = some c) : c.component.Declared s.tree := by
  obtain ⟨-, -, arg, decl, hdecl, hclass⟩ := spec_of_ofCall? h
  refine Component.declared_of_ofClass? hclass ?_
  unfold Source.classOf? at hdecl
  split at hdecl
  · exact List.mem_of_find?_eq_some hdecl
  · cases hdecl

/-- The component of a builder function is declared in the file. -/
theorem Builder.declared_of_ofFunction? {s : Source} {function : NodeId} {b : Builder}
    (h : Builder.ofFunction? s function = some b) : b.component.Declared s.tree := by
  unfold Builder.ofFunction? at h
  obtain ⟨-, -, h⟩ := Option.bind_eq_some_iff.mp h
  obtain ⟨call, -, h⟩ := Option.bind_eq_some_iff.mp h
  obtain ⟨construction, hcall, hb⟩ := Option.bind_eq_some_iff.mp h
  obtain rfl := Option.some.inj hb
  exact Construction.declared_of_ofCall? hcall

namespace Builder.Parts

variable {b : Builder} {s : Source} {u : Tree} {list call lambda body : NodeId}
  (h : b.Parts s.tree list call lambda body) (ht : s.tree.WellFormed)

include h ht

/-- Declarations stay where they are. -/
theorem not_loose_declaration {d : NodeId} (hd : d ∈ s.tree.declarations) :
    ¬ s.tree.Loose [list, body] d :=
  Tree.Edited.not_loose_child ht (h.not_loose_root ht) (h.root_not_top ht)
    (Tree.mem_children_of_significant hd)

variable (hu : s.tree.Edited [list, body] u)

include hu

theorem declarations_eq : u.declarations = s.tree.declarations := by
  rw [Tree.declarations, Tree.declarations, hu.root_eq]
  exact Tree.Edited.significant_eq ht hu (h.not_loose_root ht) (h.root_not_top ht)

theorem kind_declaration {d : NodeId} (hd : d ∈ s.tree.declarations) :
    u.kind d = s.tree.kind d :=
  hu.kind_eq (h.not_loose_declaration ht hd)

theorem kind_base {c : Component} (hc : c.Declared s.tree) :
    u.kind c.base = s.tree.kind c.base := by
  have hclass := hc.isClass
  have hdecl := h.not_loose_declaration ht hc.mem_declarations
  refine Tree.Edited.kind_child ht hu hdecl (h.not_top ?_ ?_) hc.mem_base
  · intro hk
    simp [hk, Kind.isClass] at hclass
  · intro hk
    simp [hk, Kind.isClass] at hclass

theorem argument?_eq {c : Component} (hc : c.Declared s.tree) (role : Role) :
    c.argument? u role = c.argument? s.tree role := by
  simp only [Component.argument?, Component.baseType?, Tree.supertype?, h.kind_base ht hu hc]

theorem schema?_eq {c : Component} (hc : c.Declared s.tree) (role : Role) :
    c.schema? { s with tree := u } role = c.schema? s role := by
  have hdeclaration (name : String) (test : Kind → Bool) :
      u.declaration? name test = s.tree.declaration? name test := by
    rw [Tree.declaration?, Tree.declaration?, h.declarations_eq ht hu]
    refine List.find?_congr fun d hd => ?_
    rw [Tree.name?, Tree.name?, h.kind_declaration ht hu hd]
  simp only [Component.schema?, h.argument?_eq ht hu hc, hdeclaration]
  refine Option.bind_congr fun type _ => Option.bind_congr fun decl hdecl => ?_
  have hkind := h.kind_declaration ht hu (List.mem_of_find?_eq_some hdecl)
  simp only [Schema.of?, Role.of?, hkind]

end Builder.Parts

/-! ## Parameters without a use -/

/-- The parameters of a function that no name below a node means. -/
def Source.unused (s : Source) (function body : NodeId) : List NodeId :=
  (s.tree.parameters function).filter fun p =>
    !((s.namesBelow body).filterMap s.resolve?).contains p

theorem Builder.Parts.needBody_eq {b : Builder} {t : Tree} {list call lambda body : NodeId}
    (h : b.Parts t list call lambda body) : b.needBody t = .ok body := by
  have hconstruction : b.construction? t = some { component := b.component, call } := by
    simp [Builder.construction?, h.call_eq, h.kind_call]
  have hbody : ({ component := b.component, call } : Construction).body? t = some body := by
    simp [Construction.body?, Construction.lambda?, h.lambda_eq, h.body_eq]
  simp [Builder.needBody, Builder.needConstruction, hconstruction, hbody, bind, Except.bind, pure,
    Except.pure]

theorem Builder.Parts.unusedPlan_eq {b : Builder} {s : Source} {list call lambda body : NodeId}
    (h : b.Parts s.tree list call lambda body) :
    s.unusedPlan b = .ok ((s.unused b.function body).map .dropParameter) := by
  simp [Source.unusedPlan, h.needBody_eq, Source.unused, bind, Except.bind, pure, Except.pure]

namespace Builder.Parts

variable {b : Builder} {s : Source} {list call lambda body : NodeId}
  (h : b.Parts s.tree list call lambda body)

include h

theorem parent_parameter (ht : s.tree.WellFormed) {p : NodeId}
    (hp : p ∈ s.tree.parameters b.function) : s.tree.parent p = some list := by
  rw [Tree.parameters, h.list_eq] at hp
  exact ht.mem_children_iff.mp (List.mem_filter.mp hp).1

/-- No name below the block needs a parameter without a use. -/
theorem spares_unused (ht : s.tree.WellFormed) : s.Spares body (s.unused b.function body) where
  isReference_top := by rw [h.kind_body]; rfl
  free := by
    intro n hn a ha hmem
    have hparent := h.parent_parameter ht (List.mem_filter.mp hmem).1
    rcases Tree.under_total hn (Relation.ReflTransGen.tail ha hparent) with hunder | hunder
    · exact h.body_not_under_list ht hunder
    · exact h.list_not_under_body ht hunder
  unused := by
    intro n hn href d hd hresolve
    have hmem : n ∈ s.namesBelow body :=
      (Source.mem_namesBelow_iff ht (h.body_inside_function ht).lt_size).mpr ⟨hn, href⟩
    have hnot := (List.mem_filter.mp hd).2
    simp only [Bool.not_eq_true', ← Bool.not_eq_true, List.contains_iff_mem] at hnot
    exact hnot (List.mem_filterMap.mpr ⟨n, hmem, hresolve⟩)

/-- **Once the parameters without a use are gone, all that are left have one.** -/
theorem unused_of_dropped (ht : s.tree.WellFormed) {u : Tree}
    (hu : s.tree.Dropped list (s.unused b.function body) u) :
    { s with tree := u }.unused b.function body = [] := by
  have hs := h.spares_unused ht
  have hroot : s.tree.root ≠ list := fun heq => h.root_not_top ht (by simp [heq])
  have hnames : { s with tree := u }.namesBelow body = s.namesBelow body :=
    Source.namesBelow_eq_of_dropped ht hu (h.list_not_under_body ht)
  have hused : ({ s with tree := u }.namesBelow body).filterMap { s with tree := u }.resolve? =
      (s.namesBelow body).filterMap s.resolve? := by
    rw [hnames]
    refine List.filterMap_congr fun n hn => hs.resolve?_eq hu ht hroot ?_
    exact ((Source.mem_namesBelow_iff ht (h.body_inside_function ht).lt_size).mp hn).1
  -- a parameter that is left was kept, so it is not one without a use
  rw [Source.unused, hused, hu.parameters_eq ht, List.filter_filter, List.filter_eq_nil_iff]
  intro p hp hboth
  obtain ⟨hnot, hkept⟩ := Bool.and_eq_true_iff.mp hboth
  exact of_decide_eq_true hkept (List.mem_filter.mpr ⟨hp, hnot⟩)

end Builder.Parts

end ComponentAudit
