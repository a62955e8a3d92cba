import ComponentAudit.Component
import ComponentAudit.Field
import ComponentAudit.Proofs.Tree.Moves

set_option autoImplicit false

/-! # A blank or a comment put into a tree

What a tree looks like after a blank or a comment has been put somewhere between the children of a
construct that allows it (`Kind.allowsTrivia`). The parts of a construct are found by their kinds,
and where they are found by their places, as the arguments of a call are, no trivia is allowed. So
the parts of every construct stay the same, and so does everything that is read off them.

Main definitions and statements: `Tree.Padded` relates the two trees, and `Tree.WellFormed.padded`
says that putting in a new node relates them.
-/

namespace ComponentAudit

/-- Elements that give nothing may be dropped before the results are put together. -/
theorem flatMap_filter_of_nil {α β : Type} {test : α → Bool} {f : α → List β}
    (h : ∀ a, test a = false → f a = []) (l : List α) :
    (l.filter test).flatMap f = l.flatMap f := by
  induction l with
  | nil => rfl
  | cons a l ih => cases ha : test a <;> simp [ha, ih, h]

/-- The constructs between whose children blanks and comments may stand. -/
def Kind.allowsTrivia : Kind → Bool
  | file _ | interface .. | classDecl _ | supertype .. | function _ | parameterList
  | parameter .. | property _ | lambda | block => true
  | _ => false

namespace Tree

/-- The second tree is the first one with the blank or comment `x` put in. -/
structure Padded (t : Tree) (x : NodeId) (u : Tree) : Prop where
  pos : 0 < t.size
  size_le : t.size ≤ x
  grown : t.size ≤ u.size
  root_eq : u.root = t.root
  trivia : (u.kind x).isTrivia = true
  kind_eq : ∀ {n}, n ≠ x → u.kind n = t.kind n
  parent_eq : ∀ {n}, n ≠ x → u.parent n = t.parent n
  filter_children : ∀ n, (u.children n).filter (· != x) = t.children n
  children_eq : ∀ {n}, (t.kind n).allowsTrivia = false → u.children n = t.children n

variable {t u : Tree} {x : NodeId}

theorem WellFormed.padded (ht : t.WellFormed) {k : Kind} (hk : k.isTrivia = true) {p : NodeId}
    (hp : (t.kind p).allowsTrivia = true) (i : Nat) :
    t.Padded t.size ((t.push k).insertChild p i t.size) := by
  have hlt : p < t.size := by
    by_contra h
    rw [kind_of_le (Nat.le_of_not_lt h)] at hp
    cases hp
  have hnone : t.parent t.size = none := parent_of_le (Nat.le_refl _)
  have hnew (n : NodeId) : t.size ∉ t.children n := fun hmem => by
    rw [ht.mem_children_iff, hnone] at hmem
    cases hmem
  have hchildren (n : NodeId) : ((t.push k).insertChild p i t.size).children n =
      if n = p then (t.children n).take i ++ t.size :: (t.children n).drop i
      else t.children n := by
    rw [children_insertChild_of_free (by simpa using Nat.lt_succ_of_lt hlt)
      ((parent_push ..).trans hnone), children_push]
  refine ⟨Nat.zero_lt_of_lt hlt, Nat.le_refl _, by simp, root_insertChild .., ?_, fun hn => ?_,
    fun hn => ?_, fun n => ?_, fun hn => ?_⟩
  · simpa [kind_push] using hk
  · rw [kind_insertChild, kind_push, if_neg hn]
  · rw [parent_insertChild _ _ _ _ _ (by simp), if_neg hn, parent_push]
  · have hfilter (l : List NodeId) (hl : t.size ∉ l) : l.filter (· != t.size) = l :=
      List.filter_eq_self.mpr fun c hc => by
        simpa using fun h : c = t.size => hl (h ▸ hc)
    rw [hchildren]
    split
    · have htake := hfilter ((t.children n).take i) fun h => hnew n (List.mem_of_mem_take h)
      have hdrop := hfilter ((t.children n).drop i) fun h => hnew n (List.mem_of_mem_drop h)
      rw [List.filter_append, htake, List.filter_cons_of_neg (by simp), hdrop,
        List.take_append_drop]
    · exact hfilter _ (hnew n)
  · rw [hchildren, if_neg]
    rintro rfl
    rw [hp] at hn
    cases hn

namespace Padded

variable (h : t.Padded x u)

include h

/-! ## Kinds -/

theorem kind_self : t.kind x = .blank "" := kind_of_le h.size_le

theorem childless : t.children x = [] := children_of_le h.size_le

theorem ne_of_mem_children {n c : NodeId} (hc : c ∈ t.children n) : c ≠ x := by
  rw [← h.filter_children] at hc
  simpa using (List.mem_filter.mp hc).2

theorem ne_of_kind_ne {n : NodeId} (hn : (t.kind n).isTrivia = false) : n ≠ x := by
  rintro rfl
  rw [h.kind_self] at hn
  cases hn

/-- A node is of the same kind in both trees, or it is trivia in both. -/
theorem kind_cases (n : NodeId) : u.kind n = t.kind n ∨
    ∃ text, (u.kind n = .blank text ∨ u.kind n = .comment text) ∧ t.kind n = .blank "" := by
  by_cases hn : n = x
  · subst hn
    have htrivia := h.trivia
    cases hk : u.kind n with
    | blank text => exact .inr ⟨text, .inl rfl, h.kind_self⟩
    | comment text => exact .inr ⟨text, .inr rfl, h.kind_self⟩
    | _ => rw [hk] at htrivia; cases htrivia
  · exact .inl (h.kind_eq hn)

/-- What is the same for all trivia is the same in both trees. -/
theorem apply_kind {α : Type} (g : Kind → α)
    (hg : ∀ text, g (.blank text) = g (.blank "") ∧ g (.comment text) = g (.blank ""))
    (n : NodeId) : g (u.kind n) = g (t.kind n) := by
  rcases h.kind_cases n with hk | ⟨text, hk | hk, hk'⟩
  · rw [hk]
  · rw [hk, hk', (hg text).1]
  · rw [hk, hk', (hg text).2]

theorem name?_eq (n : NodeId) : u.name? n = t.name? n :=
  h.apply_kind Kind.name? (fun _ => ⟨rfl, rfl⟩) n

theorem referenceName?_eq (n : NodeId) : u.referenceName? n = t.referenceName? n :=
  h.apply_kind Kind.referenceName? (fun _ => ⟨rfl, rfl⟩) n

theorem supertype?_eq (n : NodeId) : u.supertype? n = t.supertype? n := by
  unfold supertype?
  rcases h.kind_cases n with hk | ⟨text, hk | hk, hk'⟩
  · rw [hk]
  · rw [hk, hk']
  · rw [hk, hk']

theorem interfaceSupertypes_eq (n : NodeId) :
    (u.kind n).interfaceSupertypes = (t.kind n).interfaceSupertypes :=
  h.apply_kind Kind.interfaceSupertypes (fun _ => ⟨rfl, rfl⟩) n

theorem kind_eq_iff {k : Kind} (hk : k.isTrivia = false) (n : NodeId) :
    u.kind n = k ↔ t.kind n = k := by
  have hne (k' : Kind) (hk' : k'.isTrivia = true) : decide (k' = k) = false :=
    decide_eq_false fun heq => by rw [heq, hk] at hk'; cases hk'
  have htest := h.apply_kind (fun k' => decide (k' = k)) (fun text => by
    rw [hne (.blank text) rfl, hne (.comment text) rfl, hne (.blank "") rfl]
    exact ⟨rfl, rfl⟩) n
  simpa using htest

/-! ## Children -/

/-- The children that pass a test which trivia do not pass. -/
theorem filter_children_eq (test : Kind → Bool)
    (htest : ∀ text, test (.blank text) = false ∧ test (.comment text) = false) (n : NodeId) :
    (u.children n).filter (fun c => test (u.kind c)) =
      (t.children n).filter (fun c => test (t.kind c)) := by
  have hx : test (u.kind x) = false := by
    rw [h.apply_kind test (fun text => ⟨(htest text).1.trans (htest "").1.symm,
      (htest text).2.trans (htest "").1.symm⟩), h.kind_self, (htest "").1]
  rw [← h.filter_children, List.filter_filter]
  refine List.filter_congr fun c _ => ?_
  by_cases hc : c = x
  · simp [hc, hx]
  · simp [h.kind_eq hc, hc]

theorem significant_eq (n : NodeId) : u.significant n = t.significant n :=
  h.filter_children_eq (fun k => !k.isTrivia) (fun _ => ⟨rfl, rfl⟩) n

theorem child?_eq (test : Kind → Bool)
    (htest : ∀ text, test (.blank text) = false ∧ test (.comment text) = false) (n : NodeId) :
    u.child? n test = t.child? n test := by
  rw [child?, child?, ← List.head?_filter, ← List.head?_filter, h.filter_children_eq test htest]

/-! ## The parts of a construct -/

theorem parameterList?_eq (n : NodeId) : u.parameterList? n = t.parameterList? n := by
  have hkind := h.apply_kind (fun k => k.isFunction || k.isClass) (fun _ => ⟨rfl, rfl⟩) n
  rw [parameterList?, parameterList?, hkind,
    h.child?_eq (· == .parameterList) fun _ => ⟨rfl, rfl⟩]

theorem parameters_eq (n : NodeId) : u.parameters n = t.parameters n := by
  rw [parameters, parameters, h.parameterList?_eq]
  cases t.parameterList? n with
  | none => rfl
  | some list => exact h.filter_children_eq Kind.isParameter (fun _ => ⟨rfl, rfl⟩) list

theorem functionBody?_eq (n : NodeId) : u.functionBody? n = t.functionBody? n := by
  have hkind := h.apply_kind Kind.isFunction (fun _ => ⟨rfl, rfl⟩) n
  have hbody (c : NodeId) := h.apply_kind (· != .parameterList) (fun _ => ⟨rfl, rfl⟩) c
  simp only [functionBody?, hkind, h.significant_eq, hbody]

theorem lambdaBody?_eq (n : NodeId) : u.lambdaBody? n = t.lambdaBody? n := by
  have hblock := h.child?_eq (· == .block) (fun _ => ⟨rfl, rfl⟩) n
  simp only [lambdaBody?, h.kind_eq_iff (k := .lambda) rfl, hblock]

theorem children_of_kind {n : NodeId} {k : Kind} (hn : t.kind n = k)
    (hk : k.allowsTrivia = false) : u.children n = t.children n :=
  h.children_eq (by rw [hn, hk])

theorem callee?_eq (n : NodeId) : u.callee? n = t.callee? n := by
  simp only [callee?, h.kind_eq_iff (k := .call) rfl]
  split
  · next hn => rw [h.children_of_kind hn rfl]
  · rfl

theorem calleeName?_eq (n : NodeId) : u.calleeName? n = t.calleeName? n := by
  simp only [calleeName?, h.callee?_eq, h.referenceName?_eq]

theorem trailingLambda?_eq (n : NodeId) : u.trailingLambda? n = t.trailingLambda? n := by
  have hlambda (c : NodeId) := h.apply_kind (· == .lambda) (fun _ => ⟨rfl, rfl⟩) c
  simp only [trailingLambda?, h.kind_eq_iff (k := .call) rfl, hlambda]
  split
  · next hn => rw [h.children_of_kind hn rfl]
  · rfl

theorem arguments_eq (n : NodeId) : u.arguments n = t.arguments n := by
  simp only [arguments, h.kind_eq_iff (k := .call) rfl, h.trailingLambda?_eq]
  split
  · next hn => rw [h.children_of_kind hn rfl]
  · rfl

theorem operands?_eq (n : NodeId) : u.operands? n = t.operands? n := by
  simp only [operands?, h.kind_eq_iff (k := .assign) rfl, h.kind_eq_iff (k := .select) rfl]
  split
  · next hn =>
    have hchildren : u.children n = t.children n := by
      rcases Bool.or_eq_true_iff.mp hn with hn | hn
      · exact h.children_of_kind (of_decide_eq_true hn) rfl
      · exact h.children_of_kind (of_decide_eq_true hn) rfl
    rw [hchildren]
  · rfl

theorem writtenType?_eq (n : NodeId) : u.writtenType? n = t.writtenType? n := by
  have hkind (c : NodeId) := h.apply_kind Kind.writtenType? (fun _ => ⟨rfl, rfl⟩) c
  have href := h.child?_eq Kind.isTypeRef (fun _ => ⟨rfl, rfl⟩) n
  simp only [writtenType?, typeRef?, href, hkind]

theorem supertypes_eq (n : NodeId) : u.supertypes n = t.supertypes n :=
  h.filter_children_eq Kind.isSupertype (fun _ => ⟨rfl, rfl⟩) n

theorem members_eq (n : NodeId) : u.members n = t.members n := by
  have hinterface := h.apply_kind Kind.isInterface (fun _ => ⟨rfl, rfl⟩) n
  have hclass := h.apply_kind Kind.isClass (fun _ => ⟨rfl, rfl⟩) n
  have hmember (c : NodeId) :=
    h.apply_kind (fun k => k != .parameterList && !k.isSupertype) (fun _ => ⟨rfl, rfl⟩) c
  simp only [members, hinterface, hclass, h.significant_eq, hmember]

theorem declarations_eq : u.declarations = t.declarations := by
  rw [declarations, declarations, h.root_eq, h.significant_eq]

theorem declaration?_eq (test : Kind → Bool)
    (htest : ∀ text, test (.blank text) = test (.blank "") ∧
      test (.comment text) = test (.blank "")) (name : String) :
    u.declaration? name test = t.declaration? name test := by
  have hkind (d : NodeId) := h.apply_kind test htest d
  simp only [declaration?, h.declarations_eq, h.name?_eq, hkind]

theorem declaredType?_eq (n : NodeId) : u.declaredType? n = t.declaredType? n := by
  unfold declaredType?
  rw [h.writtenType?_eq]
  rcases h.kind_cases n with hk | ⟨text, hk | hk, hk'⟩
  · rw [hk]
  · rw [hk, hk']
  · rw [hk, hk']

theorem ofClass?_eq (fw : Framework) (n : NodeId) :
    Component.ofClass? u fw n = Component.ofClass? t fw n := by
  have hclass := h.apply_kind Kind.isClass (fun _ => ⟨rfl, rfl⟩) n
  simp only [Component.ofClass?, hclass, h.supertypes_eq, h.supertype?_eq]

/-! ## Walks -/

section

variable (ht : t.WellFormed)

include ht

theorem chain_eq (k : Nat) {o : Option NodeId} (ho : o ≠ some x) : u.chain k o = t.chain k o := by
  induction k generalizing o with
  | zero => rfl
  | succ k ih =>
      cases o with
      | none => rfl
      | some p =>
          have hp : p ≠ x := fun heq => ho (congrArg some heq)
          rw [chain, chain, h.parent_eq hp, ih fun hparent => ?_]
          exact Nat.not_lt_of_le h.size_le (ht.lt_size hparent)

theorem ancestors_eq {n : NodeId} (hn : n ≠ x) : u.ancestors n = t.ancestors n := by
  cases hp : t.parent n with
  | none => rw [ancestors, ancestors, h.parent_eq hn, hp, chain_none, chain_none]
  | some p =>
      have hlt := ht.lt_size hp
      have hlength : (t.chain t.size (some p)).length < t.size := by
        have hle := ht.length_lineage_le (lt_size_of_parent hp)
        rw [lineage, ancestors, hp] at hle
        exact hle
      have hne : some p ≠ some x := fun heq =>
        Nat.not_lt_of_le h.size_le (Option.some.inj heq ▸ hlt)
      rw [ancestors, ancestors, h.parent_eq hn, hp, h.chain_eq ht _ hne,
        chain_eq_of_length_lt hlength h.grown]

theorem ne_of_mem_lineage {n a : NodeId} (hn : n ≠ x) (ha : a ∈ t.lineage n) : a ≠ x := by
  rintro rfl
  rcases List.mem_cons.mp ha with heq | ha
  · exact hn heq.symm
  · have hlt := ht.lt_size_of_mem_chain (fun p hp => ht.lt_size hp) ha
    exact Nat.not_lt_of_le h.size_le hlt

theorem container?_eq {n : NodeId} (hn : n ≠ x) : u.container? n = t.container? n := by
  have hkind (a : NodeId) := h.apply_kind (fun k => k.isFile || k.isClass) (fun _ => ⟨rfl, rfl⟩) a
  simp only [container?, ancestor?, h.ancestors_eq ht hn, hkind]

theorem commonAncestor?_eq {a b : NodeId} (ha : a ≠ x) (hb : b ≠ x) :
    u.commonAncestor? a b = t.commonAncestor? a b := by
  simp only [commonAncestor?, lineage, h.ancestors_eq ht ha, h.ancestors_eq ht hb]

theorem ne_of_commonAncestor? {a b c : NodeId} (hb : b ≠ x)
    (hc : t.commonAncestor? a b = some c) : c ≠ x :=
  h.ne_of_mem_lineage ht hb (List.mem_of_find?_eq_some hc)

end

/-- A walk down meets the same nodes, the new one apart. -/
theorem filter_preorder (k : Nat) (n : NodeId) :
    (u.preorder k n).filter (· != x) = (t.preorder k n).filter (· != x) := by
  have hself (k : Nat) : (t.preorder k x).filter (· != x) = [] := by
    cases k <;> simp [preorder, h.childless]
  induction k generalizing n with
  | zero => rfl
  | succ k ih =>
      have hbelow : (u.children n).flatMap (fun c => (u.preorder k c).filter (· != x)) =
          (t.children n).flatMap (fun c => (t.preorder k c).filter (· != x)) := by
        simp only [ih]
        rw [← h.filter_children, flatMap_filter_of_nil]
        intro c hc
        rw [show c = x by simpa using hc, hself]
      rw [preorder, preorder, List.filter_cons, List.filter_cons, List.filter_flatMap,
        List.filter_flatMap, hbelow]

end Padded

end Tree

end ComponentAudit
