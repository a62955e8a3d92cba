import ComponentAudit.Proofs.Source.Bounds
import ComponentAudit.Proofs.Tree.Padded

set_option autoImplicit false

/-! # Trivia and the reading of a source

A blank or a comment put into a source (`Source.Padded`) changes nothing of what is read off it:
what names are bound to, the types of expressions, the code of bodies. Bindings are compared for the
nodes that were there before, since only their surroundings are the same; all else is compared for
every node, the new one included, which is no name and no expression in either source.

Main statements: `Source.Padded.typeOf?_eq`, `Source.Padded.resolve?_eq` and
`Source.Padded.flow?_eq`.
-/

namespace ComponentAudit

namespace Source

/-- The second source is the first one with the blank or comment `x` put in. -/
structure Padded (s : Source) (x : NodeId) (s' : Source) : Prop
    extends Tree.Padded s.tree x s'.tree where
  framework_eq : s'.framework = s.framework
  bodiesKnown_eq : s'.bodiesKnown = s.bodiesKnown

namespace Padded

variable {s s' : Source} {x : NodeId} (h : s.Padded x s')

include h

/-! ## Members -/

theorem typeDeclaration?_eq (type : TypeExpr) :
    s'.typeDeclaration? type = s.typeDeclaration? type :=
  h.declaration?_eq (fun k => k.isInterface || k.isClass) (fun _ => ⟨rfl, rfl⟩) _

theorem ownMember?_eq (decl : NodeId) (name : String) :
    s'.ownMember? decl name = s.ownMember? decl name := by
  have hproperty (m : NodeId) := h.apply_kind Kind.isProperty (fun _ => ⟨rfl, rfl⟩) m
  simp only [ownMember?, h.members_eq, hproperty, h.name?_eq]

theorem searchMember?_eq (name : String) (n : Nat) (seen : List NodeId) (pending : List TypeExpr) :
    s'.searchMember? name n seen pending = s.searchMember? name n seen pending := by
  induction n generalizing seen pending with
  | zero => rfl
  | succ n ih =>
      cases pending with
      | nil => rfl
      | cons type pending =>
          simp only [searchMember?, h.typeDeclaration?_eq, h.ownMember?_eq,
            h.interfaceSupertypes_eq, ih]

theorem member?_eq (owner : TypeExpr) (name : String) :
    s'.member? owner name = s.member? owner name := by
  have hbound : s'.searchBound = s.searchBound := by
    simp only [searchBound, h.declarations_eq, h.interfaceSupertypes_eq]
  rw [member?, member?, hbound, h.searchMember?_eq]

theorem memberMeaning_eq (owner : TypeExpr) (name : String) :
    s'.memberMeaning owner name = s.memberMeaning owner name := by
  simp only [memberMeaning, h.framework_eq, h.member?_eq]

/-! ## Bindings -/

theorem classOf?_eq (n : NodeId) : s'.classOf? n = s.classOf? n := by
  unfold classOf?
  have hdecl (name : String) := h.declaration?_eq Kind.isClass (fun _ => ⟨rfl, rfl⟩) name
  simp only [hdecl]
  rcases h.kind_cases n with hk | ⟨text, hk | hk, hk'⟩
  · rw [hk]
  · rw [hk, hk']
  · rw [hk, hk']

theorem argument?_eq (c : Component) (role : Role) :
    c.argument? s'.tree role = c.argument? s.tree role := by
  simp only [Component.argument?, Component.baseType?, h.supertype?_eq]

theorem constructedProps?_eq (call : NodeId) :
    s'.constructedProps? call = s.constructedProps? call := by
  simp only [constructedProps?, h.arguments_eq, h.classOf?_eq, h.framework_eq, h.ofClass?_eq,
    h.argument?_eq]

theorem lambdaReceiver?_eq {lambda : NodeId} (hn : lambda ≠ x) :
    s'.lambdaReceiver? lambda = s.lambdaReceiver? lambda := by
  simp only [lambdaReceiver?, h.parent_eq hn, h.trailingLambda?_eq, h.calleeName?_eq,
    h.framework_eq, h.constructedProps?_eq]

theorem receiverAt?_eq {scope : NodeId} (hn : scope ≠ x) :
    s'.receiverAt? scope = s.receiverAt? scope := by
  simp only [receiverAt?, h.kind_eq hn, h.lambdaReceiver?_eq hn]

theorem lexicalFrom?_eq (name : String) {scopes : List NodeId} (hn : ∀ n ∈ scopes, n ≠ x) :
    s'.lexicalFrom? name scopes = s.lexicalFrom? name scopes := by
  induction scopes with
  | nil => rfl
  | cons scope outer ih =>
      obtain ⟨hscope, houter⟩ := List.forall_mem_cons.mp hn
      have hdecl := h.declaration?_eq (fun k => k.isInterface || k.isClass || k.isFunction)
        (fun _ => ⟨rfl, rfl⟩) name
      simp only [lexicalFrom?, h.kind_eq hscope, firstNamed?, h.parameters_eq, h.name?_eq,
        ih houter, hdecl]

theorem referenceName_ne {n : NodeId} {name : String} (hn : s.tree.referenceName? n = some name) :
    n ≠ x := by
  rintro rfl
  rw [Tree.referenceName?, h.kind_self] at hn
  cases hn

theorem qualifier?_eq {n : NodeId} (hn : n ≠ x) : s'.qualifier? n = s.qualifier? n := by
  simp only [qualifier?, h.parent_eq hn, h.kind_eq_iff (k := .select) rfl, h.operands?_eq]

section

variable (ht : s.tree.WellFormed)

include ht

theorem binding_eq {n : NodeId} (hn : n ≠ x) (name : String) :
    s'.binding n name = s.binding n name := by
  have habove : ∀ a ∈ s.tree.ancestors n, a ≠ x := fun a ha =>
    h.ne_of_mem_lineage ht hn (List.mem_cons_of_mem n ha)
  have hlexical : s'.lexical? n name = s.lexical? n name := by
    rw [lexical?, lexical?, h.ancestors_eq ht hn, h.lexicalFrom?_eq name habove]
  have hreceivers : s'.receivers n = s.receivers n := by
    rw [receivers, receivers, h.ancestors_eq ht hn]
    exact List.filterMap_congr fun a ha => h.receiverAt?_eq (habove a ha)
  simp only [binding, hlexical, hreceivers, h.memberMeaning_eq]

/-! ## Types -/

theorem typeWithin?_eq (k : Nat) (n : NodeId) : s'.typeWithin? k n = s.typeWithin? k n := by
  induction k generalizing n with
  | zero => rfl
  | succ k ih =>
      by_cases hn : n = x
      · rcases h.kind_cases n with hk | ⟨text, hk | hk, hk'⟩
        · rw [typeWithin?, typeWithin?, hk, hn, h.kind_self]
        · rw [typeWithin?, typeWithin?, hk, hk']
        · rw [typeWithin?, typeWithin?, hk, hk']
      · have hbinding (b : Binding) : s'.bindingType? b = s.bindingType? b := by
          unfold bindingType?
          simp only [h.declaredType?_eq]
        simp only [typeWithin?, h.kind_eq hn, h.qualifier?_eq hn, ih, h.member?_eq,
          h.declaredType?_eq, hbinding, h.binding_eq ht hn, h.operands?_eq]

theorem typeOf?_eq (n : NodeId) : s'.typeOf? n = s.typeOf? n := by
  rw [typeOf?, h.typeWithin?_eq ht, typeWithin?_eq_of_le ht h.grown]

theorem referent?_eq (n : NodeId) : s'.referent? n = s.referent? n := by
  unfold referent?
  rw [h.referenceName?_eq]
  cases hname : s.tree.referenceName? n with
  | none => rfl
  | some name =>
      have hn := h.referenceName_ne hname
      simp only [h.qualifier?_eq hn, h.typeOf?_eq ht, h.member?_eq, h.binding_eq ht hn]

theorem access_eq (n : NodeId) : s'.access n = s.access n := by
  unfold access
  rw [h.referenceName?_eq]
  cases hname : s.tree.referenceName? n with
  | none => rfl
  | some name => simp only [h.binding_eq ht (h.referenceName_ne hname)]

theorem selected_eq (n : NodeId) : s'.selected n = s.selected n := by
  rw [selected, selected, h.referent?_eq ht]

theorem resolve?_eq (n : NodeId) : s'.resolve? n = s.resolve? n := by
  unfold resolve?
  rw [h.referent?_eq ht, h.classOf?_eq]
  rcases h.kind_cases n with hk | ⟨text, hk | hk, hk'⟩
  · rw [hk]
  · rw [hk, hk']
  · rw [hk, hk']

/-! ## Code -/

theorem assignCode_eq (expr : NodeId → Code) (n : NodeId) :
    s'.assignCode expr n = s.assignCode expr n := by
  unfold assignCode
  rw [h.operands?_eq]
  cases s.tree.operands? n with
  | none => rfl
  | some o =>
      obtain ⟨place, value⟩ := o
      simp only [h.operands?_eq, h.selected_eq ht, h.access_eq ht]
      rcases h.kind_cases place with hk | ⟨text, hk | hk, hk'⟩
      · rw [hk]
      · rw [hk, hk']
      · rw [hk, hk']

theorem codeWithin_eq (k : Nat) : s'.codeWithin k = s.codeWithin k := by
  induction k with
  | zero => rfl
  | succ k ih =>
      funext usage n
      rcases h.kind_cases n with hk | ⟨text, hk | hk, hk'⟩
      · -- the kinds whose parts are found by their places allow no trivia
        cases usage <;> cases hn : s.tree.kind n <;>
          simp only [codeWithin, hk, hn, ih, h.assignCode_eq ht, h.significant_eq, h.operands?_eq,
            h.selected_eq ht, h.access_eq ht, h.arguments_eq, h.trailingLambda?_eq, ifCode,
            leaveCode, h.children_eq, Kind.allowsTrivia]
      · cases usage <;> simp only [codeWithin, hk, hk']
      · cases usage <;> simp only [codeWithin, hk, hk']

omit ht in
theorem bodyOf?_eq (n : NodeId) : s'.bodyOf? n = s.bodyOf? n := by
  unfold bodyOf?
  rw [h.lambdaBody?_eq, h.functionBody?_eq]
  rcases h.kind_cases n with hk | ⟨text, hk | hk, hk'⟩
  · rw [hk]
  · rw [hk, hk']
  · rw [hk, hk']

theorem flow?_eq (n : NodeId) : s'.flow? n = s.flow? n := by
  unfold flow?
  rw [h.bodiesKnown_eq, h.bodyOf?_eq]
  split
  · refine Option.map_congr fun body hbody => ?_
    have hlt := lt_size_of_bodyOf? ht hbody
    have hreached : s.Reached s.tree.size body :=
      ⟨hlt, by have := s.tree.depth_pos body; omega⟩
    have hcode : s'.bodyCode body = s.bodyCode body := by
      simp only [bodyCode, h.kind_eq_iff (k := .block) rfl, h.codeWithin_eq ht]
      exact codeWithin_eq_of_le ht hreached h.grown
    rw [hcode]
  · rfl

end

end Padded

end Source

end ComponentAudit
