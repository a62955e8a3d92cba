import ComponentAudit.Edit.Synchronize
import ComponentAudit.Proofs.Edit.Frame
import ComponentAudit.Proofs.Source.Bounds

set_option autoImplicit false

/-! # Dropping parameters and statements

When parameters of a list or statements of a block are dropped, a name that is left means what it
meant before, unless that hung on something dropped (`Source.Relies`). The search for a declaration
goes through the parameters of the functions around a name, and it finds the same one in a list from
which only others were taken. Statements are never found.

Main statement: `Source.resolve?_eq_of_dropped`. Parameters without a use can be dropped
(`Source.Spares.resolve?_eq`): below the block of the lambda nothing hangs on them.
-/

namespace ComponentAudit

namespace Tree

/-- Whether a tree comes from another one by dropping parameters of a list or statements of a
block. -/
structure Dropped (t : Tree) (list : NodeId) (dropped : List NodeId) (u : Tree) : Prop where
  kind_list : t.kind list = .parameterList ∨ t.kind list = .block
  parent_dropped : ∀ d ∈ dropped, t.parent d = some list
  kind_eq : ∀ n, u.kind n = t.kind n
  size_eq : u.size = t.size
  root_eq : u.root = t.root
  parent_eq : ∀ {n}, n ∉ dropped → u.parent n = t.parent n
  parent_eq_none : ∀ d ∈ dropped, u.parent d = none
  children_eq : ∀ {n}, n ≠ list → u.children n = t.children n
  children_list : u.children list = (t.children list).filter (· ∉ dropped)

/-- Taking out nodes one by one. -/
theorem foldl_detach {t : Tree} (ht : t.WellFormed) (ds : List NodeId) :
    (ds.foldl detach t).size = t.size ∧ (ds.foldl detach t).root = t.root ∧
      ∀ n, (ds.foldl detach t).kind n = t.kind n ∧
        (ds.foldl detach t).parent n = (if n ∈ ds then none else t.parent n) ∧
        (ds.foldl detach t).children n = (t.children n).filter (· ∉ ds) := by
  induction ds generalizing t with
  | nil => simp
  | cons d ds ih =>
      obtain ⟨hsize, hroot, hnode⟩ := ih (ht.detach d)
      rw [List.foldl_cons]
      refine ⟨by simpa using hsize, by simpa using hroot, fun n => ?_⟩
      obtain ⟨hkind, hparent, hchildren⟩ := hnode n
      refine ⟨by simpa using hkind, ?_, ?_⟩
      · rw [hparent, parent_detach]
        by_cases hn : n ∈ ds <;> by_cases hd : n = d <;> simp [hn, hd]
      · rw [hchildren, ht.children_detach, List.filter_filter]
        refine List.filter_congr fun c _ => ?_
        by_cases hc : c = d <;> simp [hc]

/-- Dropping children of a list or of a block. -/
theorem dropped_of_kind {t : Tree} (ht : t.WellFormed) {list : NodeId} {dropped : List NodeId}
    (hlist : t.kind list = .parameterList ∨ t.kind list = .block)
    (h : ∀ d ∈ dropped, t.parent d = some list) :
    t.Dropped list dropped (dropped.foldl detach t) := by
  obtain ⟨hsize, hroot, hnode⟩ := foldl_detach ht dropped
  refine ⟨hlist, h, fun n => (hnode n).1, hsize, hroot, ?_, ?_, ?_, (hnode list).2.2⟩
  · intro n hn
    rw [(hnode n).2.1, if_neg hn]
  · intro d hd
    rw [(hnode d).2.1, if_pos hd]
  · intro n hn
    rw [(hnode n).2.2, List.filter_eq_self]
    intro c hc
    have : c ∉ dropped := fun hd =>
      hn (Option.some.inj ((ht.mem_children_iff.mp hc).symm.trans (h c hd)))
    simpa using this

/-- Dropping the parameters of a list. -/
theorem dropped_foldl_detach {t : Tree} (ht : t.WellFormed) {list : NodeId}
    {dropped : List NodeId} (hlist : t.kind list = .parameterList)
    (h : ∀ d ∈ dropped, t.parent d = some list) :
    t.Dropped list dropped (dropped.foldl detach t) :=
  dropped_of_kind ht (.inl hlist) h

namespace Dropped

variable {t u : Tree} {list : NodeId} {dropped : List NodeId} (h : t.Dropped list dropped u)

include h

theorem name?_eq (n : NodeId) : u.name? n = t.name? n := by rw [name?, h.kind_eq, name?]

theorem significant_eq {n : NodeId} (hn : n ≠ list) : u.significant n = t.significant n := by
  simp only [significant, h.children_eq hn, h.kind_eq]

theorem child?_eq {n : NodeId} (hn : n ≠ list) (test : Kind → Bool) :
    u.child? n test = t.child? n test := by
  simp only [child?, h.children_eq hn, h.kind_eq]

/-! The lookups below test the kind of the node first, so they never look at the list or the
block. -/

theorem ne_list {n : NodeId} (hn : ¬ (t.kind n = .parameterList ∨ t.kind n = .block)) :
    n ≠ list :=
  fun hnl => hn (hnl ▸ h.kind_list)

/-- What hangs below another kind of node was not dropped. -/
theorem not_mem_of_parent {n p : NodeId} (hn : t.parent n = some p)
    (hp : ¬ (t.kind p = .parameterList ∨ t.kind p = .block)) : n ∉ dropped := by
  intro hd
  exact h.ne_list hp (Option.some.inj (hn.symm.trans (h.parent_dropped n hd)))

theorem parameterList?_eq (n : NodeId) : u.parameterList? n = t.parameterList? n := by
  simp only [parameterList?, h.kind_eq]
  split
  · next hk =>
    refine h.child?_eq (h.ne_list ?_) _
    rintro (hk' | hk') <;> simp [hk', Kind.isFunction, Kind.isClass] at hk
  · rfl

theorem operands?_eq (n : NodeId) : u.operands? n = t.operands? n := by
  simp only [operands?, h.kind_eq]
  split
  · next hk =>
    rw [h.children_eq (h.ne_list ?_)]
    rintro (hk' | hk') <;> simp [hk'] at hk
  · rfl

theorem trailingLambda?_eq (n : NodeId) : u.trailingLambda? n = t.trailingLambda? n := by
  simp only [trailingLambda?, h.kind_eq]
  split
  · next hk => rw [h.children_eq (h.ne_list (by simp [hk]))]
  · rfl

theorem arguments_eq (n : NodeId) : u.arguments n = t.arguments n := by
  simp only [arguments, h.kind_eq, h.trailingLambda?_eq]
  split
  · next hk => rw [h.children_eq (h.ne_list (by simp [hk]))]
  · rfl

theorem calleeName?_eq (n : NodeId) : u.calleeName? n = t.calleeName? n := by
  have hname (m : NodeId) : u.referenceName? m = t.referenceName? m := by
    rw [referenceName?, h.kind_eq, referenceName?]
  simp only [calleeName?, callee?, h.kind_eq]
  split
  · next hk =>
    rw [h.children_eq (h.ne_list (by simp [hk]))]
    exact congrArg _ (funext hname)
  · rfl

theorem members_eq (n : NodeId) : u.members n = t.members n := by
  simp only [members, h.kind_eq]
  split
  · next hk =>
    refine h.significant_eq (h.ne_list ?_)
    rintro (hk' | hk') <;> simp [hk', Kind.isInterface] at hk
  · split
    · next hk =>
      rw [h.significant_eq (h.ne_list ?_)]
      rintro (hk' | hk') <;> simp [hk', Kind.isClass] at hk
    · rfl

theorem declaredType?_eq (n : NodeId) : u.declaredType? n = t.declaredType? n := by
  have hwritten (hn : ¬ (t.kind n = .parameterList ∨ t.kind n = .block)) :
      u.writtenType? n = t.writtenType? n := by
    simp only [writtenType?, typeRef?, h.child?_eq (h.ne_list hn), h.kind_eq]
  simp only [declaredType?, h.kind_eq]
  split
  · next hk => exact hwritten (by simp [hk])
  · next hk => exact hwritten (by simp [hk])
  · rfl
  · rfl
  · rfl

theorem ofClass?_eq (fw : Framework) (n : NodeId) :
    Component.ofClass? u fw n = Component.ofClass? t fw n := by
  simp only [Component.ofClass?, supertypes, supertype?, h.kind_eq]
  split
  · next hk =>
    rw [h.children_eq (h.ne_list ?_)]
    rintro (hk' | hk') <;> simp [hk', Kind.isClass] at hk
  · rfl

theorem declaration?_eq (hroot : t.root ≠ list) (name : String) (test : Kind → Bool) :
    u.declaration? name test = t.declaration? name test := by
  simp only [declaration?, declarations, h.root_eq, h.significant_eq hroot, h.name?_eq, h.kind_eq]

/-- The parameters of a function without those that were dropped. -/
theorem parameters_eq (ht : t.WellFormed) (n : NodeId) :
    u.parameters n = (t.parameters n).filter (· ∉ dropped) := by
  simp only [parameters, h.parameterList?_eq, h.kind_eq]
  split
  · next l _ =>
    by_cases hl : l = list
    · rw [hl, h.children_list, List.filter_filter, List.filter_filter]
      exact List.filter_congr fun c _ => Bool.and_comm ..
    · rw [h.children_eq hl, List.filter_filter]
      refine List.filter_congr fun c hc => ?_
      have : c ∉ dropped := fun hd =>
        hl (Option.some.inj ((ht.mem_children_iff.mp hc).symm.trans (h.parent_dropped c hd)))
      simp [this]
  · rfl

/-- What hangs somewhere was not dropped, and it hung there before. -/
theorem of_parent {x y : NodeId} (hxy : u.parent x = some y) :
    x ∉ dropped ∧ t.parent x = some y := by
  have hx : x ∉ dropped := by
    intro hd
    rw [h.parent_eq_none x hd] at hxy
    cases hxy
  exact ⟨hx, (h.parent_eq hx).symm.trans hxy⟩

/-- What still hangs below a node hung there before. -/
theorem under_of_under {top x : NodeId} (hx : u.Under x top) : t.Under x top := by
  induction hx using Relation.ReflTransGen.head_induction_on with
  | refl => exact .refl
  | head hxy _ ih => exact .head (h.of_parent hxy).2 ih

/-- Above what still hangs below a node there is nothing dropped, if there is nothing above that
node. -/
theorem kept_of_under {top x : NodeId} (htop : ∀ a, t.Under top a → a ∉ dropped)
    (hx : u.Under x top) : ∀ a, t.Under x a → a ∉ dropped := by
  induction hx using Relation.ReflTransGen.head_induction_on with
  | refl => exact htop
  | head hxy _ ih =>
      obtain ⟨hx, hparent⟩ := h.of_parent hxy
      intro a ha
      rcases Relation.ReflTransGen.cases_head ha with rfl | ⟨z, hz, ha⟩
      · exact hx
      · obtain rfl := Option.some.inj (hparent.symm.trans hz)
        exact ih a ha

/-- Above a node without anything dropped above it everything is as before. -/
theorem chain_eq {p : NodeId} (hp : ∀ a, t.Under p a → a ∉ dropped) (k : Nat) :
    u.chain k (some p) = t.chain k (some p) := by
  induction k generalizing p with
  | zero => rfl
  | succ k ih =>
      rw [chain, chain, h.parent_eq (hp p .refl)]
      cases hq : t.parent p with
      | none => rw [chain_none, chain_none]
      | some q => rw [ih fun a ha => hp a (.head hq ha)]

theorem ancestors_eq {n : NodeId} (hn : ∀ a, t.Under n a → a ∉ dropped) :
    u.ancestors n = t.ancestors n := by
  rw [ancestors, ancestors, h.size_eq, h.parent_eq (hn n .refl)]
  cases hp : t.parent n with
  | none => rw [chain_none, chain_none]
  | some p => exact h.chain_eq (fun a ha => hn a (.head hp ha)) _

end Dropped

end Tree

/-- A search finds the same in a part of a list that has what it finds. -/
theorem find?_filter_eq {α : Type} {l : List α} {keep test : α → Bool}
    (h : ∀ x, l.find? test = some x → keep x = true) :
    (l.filter keep).find? test = l.find? test := by
  induction l with
  | nil => rfl
  | cons x l ih =>
      by_cases hx : test x = true
      · have hk := h x (by simp [hx])
        simp [hk, hx]
      · have hl : l.find? test = (x :: l).find? test := by simp [hx]
        by_cases hk : keep x = true
        · simpa [hk, hx] using ih fun y hy => h y (hl ▸ hy)
        · simpa [hk, hx] using ih fun y hy => h y (hl ▸ hy)

namespace Source

variable {s : Source} {u : Tree} {list : NodeId} {dropped : List NodeId}
  (h : s.tree.Dropped list dropped u)

include h

/-! ## Members and receivers -/

theorem member?_eq_of_dropped (hroot : s.tree.root ≠ list) (owner : TypeExpr) (name : String) :
    { s with tree := u }.member? owner name = s.member? owner name := by
  have hdecl (type : TypeExpr) :
      { s with tree := u }.typeDeclaration? type = s.typeDeclaration? type :=
    h.declaration?_eq hroot _ _
  have hown (decl : NodeId) :
      { s with tree := u }.ownMember? decl name = s.ownMember? decl name := by
    simp only [ownMember?, h.members_eq, h.kind_eq, h.name?_eq]
  have hsearch (n : Nat) (seen : List NodeId) (pending : List TypeExpr) :
      { s with tree := u }.searchMember? name n seen pending =
        s.searchMember? name n seen pending := by
    induction n generalizing seen pending with
    | zero => rfl
    | succ n ih =>
        cases pending with
        | nil => rfl
        | cons type pending => simp only [searchMember?, hdecl, hown, ih, h.kind_eq]
  have hbound : { s with tree := u }.searchBound = s.searchBound := by
    simp only [searchBound, Tree.declarations, h.root_eq, h.significant_eq hroot, h.kind_eq]
  rw [member?, member?, hbound, hsearch]

theorem memberMeaning_eq_of_dropped (hroot : s.tree.root ≠ list) (owner : TypeExpr)
    (name : String) :
    { s with tree := u }.memberMeaning owner name = s.memberMeaning owner name := by
  simp only [memberMeaning, member?_eq_of_dropped h hroot]

theorem classOf?_eq_of_dropped (hroot : s.tree.root ≠ list) (n : NodeId) :
    { s with tree := u }.classOf? n = s.classOf? n := by
  simp only [classOf?, h.kind_eq, h.declaration?_eq hroot]

theorem receiverAt?_eq_of_dropped (hroot : s.tree.root ≠ list) {n : NodeId} (hn : n ∉ dropped) :
    { s with tree := u }.receiverAt? n = s.receiverAt? n := by
  have hprops (call : NodeId) :
      { s with tree := u }.constructedProps? call = s.constructedProps? call := by
    simp only [constructedProps?, h.arguments_eq, classOf?_eq_of_dropped h hroot, h.ofClass?_eq,
      Component.argument?, Component.baseType?, Tree.supertype?, h.kind_eq]
  simp only [receiverAt?, lambdaReceiver?, h.kind_eq, h.parent_eq hn, h.trailingLambda?_eq,
    h.calleeName?_eq, hprops]

/-! ## Names -/

/-- A name means the same declaration as before, unless that declaration was dropped. -/
theorem lexicalFrom?_eq_of_dropped (ht : s.tree.WellFormed) (hroot : s.tree.root ≠ list)
    (name : String) (scopes : List NodeId)
    (hkeep : ∀ d ∈ dropped, s.lexicalFrom? name scopes ≠ some d) :
    { s with tree := u }.lexicalFrom? name scopes = s.lexicalFrom? name scopes := by
  -- a scope that binds the name binds it to a parameter that was kept; one that does not bind it
  -- does not do so with fewer parameters either
  induction scopes with
  | nil => rfl
  | cons scope outer ih =>
      simp only [lexicalFrom?, h.kind_eq] at hkeep ⊢
      split
      · next hk =>
        simp only [hk] at hkeep
        have hfirst : { s with tree := u }.firstNamed? name (u.parameters scope) =
            s.firstNamed? name (s.tree.parameters scope) := by
          simp only [firstNamed?, h.parameters_eq ht, h.name?_eq]
          refine find?_filter_eq fun q hq => ?_
          have hq : s.firstNamed? name (s.tree.parameters scope) = some q := hq
          have : q ∉ dropped := fun hd => hkeep q hd (by rw [hq])
          simpa using this
        rw [hfirst]
        split
        · rfl
        · next hnone =>
          rw [hnone] at hkeep
          exact ih hkeep
      · exact h.declaration?_eq hroot _ _
      · next hfunction hfile =>
        refine ih ?_
        split at hkeep
        · next hk => exact absurd hk (hfunction _)
        · next hk => exact absurd hk (hfile _)
        · exact hkeep

theorem binding_eq_of_dropped (ht : s.tree.WellFormed) (hroot : s.tree.root ≠ list)
    {place : NodeId} (hplace : ∀ a, s.tree.Under place a → a ∉ dropped) (name : String)
    (hkeep : ∀ d ∈ dropped, s.lexical? place name ≠ some d) :
    { s with tree := u }.binding place name = s.binding place name := by
  have hlexical : { s with tree := u }.lexical? place name = s.lexical? place name := by
    simp only [lexical?, h.ancestors_eq hplace]
    exact lexicalFrom?_eq_of_dropped h ht hroot name _ hkeep
  have hreceivers : { s with tree := u }.receivers place = s.receivers place := by
    simp only [receivers, h.ancestors_eq hplace]
    refine List.filterMap_congr fun a ha => receiverAt?_eq_of_dropped h hroot ?_
    exact hplace a (ht.mem_lineage_iff.mp (List.mem_cons_of_mem _ ha))
  simp only [binding, hlexical, hreceivers, memberMeaning_eq_of_dropped h hroot]

end Source

namespace Source

/-! ## What the meaning of a name hangs on -/

/-- Whether what a node means hangs on a declaration: the node is a name that means the declaration,
or the type that has to be asked for first hangs on it. -/
inductive Relies (s : Source) (d : NodeId) : NodeId → Prop
  | means {n : NodeId} {name : String} :
      s.tree.kind n = .reference name → s.resolve? n = some d → Relies s d n
  | asks {n m : NodeId} : s.asks? n = some m → Relies s d m → Relies s d n

variable {s : Source} {u : Tree} {list : NodeId} {dropped : List NodeId}

/-- What a bare name is bound to lexically is what it means. -/
theorem resolve?_of_lexical? {n d : NodeId} {name : String} (hk : s.tree.kind n = .reference name)
    (hq : s.qualifier? n = none) (hd : s.lexical? n name = some d) : s.resolve? n = some d := by
  simp [resolve?, hk, referent?, Tree.referenceName?, Kind.referenceName?, hq, binding, hd,
    Binding.declaration?]

theorem asks?_of_qualifier? {n receiver : NodeId} {name : String}
    (hk : s.tree.kind n = .reference name) (hq : s.qualifier? n = some receiver) :
    s.asks? n = some receiver := by
  rw [asks?, hk]
  exact hq

theorem asks?_of_operands? {n left right : NodeId} (hk : s.tree.kind n = .select)
    (ho : s.tree.operands? n = some (left, right)) : s.asks? n = some right := by
  rw [asks?, hk]
  simp [ho]

section

variable (h : s.tree.Dropped list dropped u)

include h

theorem qualifier?_eq_of_dropped {n : NodeId} (hn : n ∉ dropped) :
    { s with tree := u }.qualifier? n = s.qualifier? n := by
  simp only [qualifier?, h.parent_eq hn, h.kind_eq, h.operands?_eq]

variable (ht : s.tree.WellFormed)

include ht

/-- What is asked hangs where the asking node hangs, or below it, and it was not dropped itself. -/
theorem kept_of_asks? {n m : NodeId} (hn : ∀ a, s.tree.Under n a → a ∉ dropped)
    (hm : s.asks? n = some m) : ∀ a, s.tree.Under m a → a ∉ dropped := by
  -- the asked node is an operand of a selection that was not dropped
  obtain ⟨p, hp, hkind, hkept⟩ : ∃ p, s.tree.parent m = some p ∧ s.tree.kind p = .select ∧
      ∀ a, s.tree.Under p a → a ∉ dropped := by
    unfold asks? at hm
    split at hm
    · unfold qualifier? at hm
      obtain ⟨p, hp, hm⟩ := Option.bind_eq_some_iff.mp hm
      obtain ⟨hkind, hm⟩ := Option.ite_none_right_eq_some.mp hm
      obtain ⟨⟨left, right⟩, ho, hm⟩ := Option.bind_eq_some_iff.mp hm
      obtain ⟨-, hleft⟩ := Option.ite_none_right_eq_some.mp hm
      obtain rfl := Option.some.inj hleft
      exact ⟨p, ht.mem_children_iff.mp (Tree.mem_children_of_operands? ho).1, hkind,
        fun a ha => hn a (.head hp ha)⟩
    · next hkind =>
      obtain ⟨⟨left, right⟩, ho, rfl⟩ := Option.map_eq_some_iff.mp hm
      exact ⟨n, ht.mem_children_iff.mp (Tree.mem_children_of_operands? ho).2, hkind, hn⟩
    · cases hm
  intro a ha
  rcases Relation.ReflTransGen.cases_head ha with rfl | ⟨q, hq, ha⟩
  · exact h.not_mem_of_parent hp (by simp [hkind])
  · obtain rfl : p = q := Option.some.inj (hp.symm.trans hq)
    exact hkept a ha

variable (hroot : s.tree.root ≠ list)

include hroot

theorem binding_eq_of_not_relies {n : NodeId} {name : String}
    (hkept : ∀ a, s.tree.Under n a → a ∉ dropped) (hfree : ∀ d ∈ dropped, ¬ s.Relies d n)
    (hk : s.tree.kind n = .reference name) (hq : s.qualifier? n = none) :
    { s with tree := u }.binding n name = s.binding n name :=
  binding_eq_of_dropped h ht hroot hkept name fun d hd hlexical =>
    hfree d hd (.means hk (resolve?_of_lexical? hk hq hlexical))

/-- An expression has the same type as before. -/
theorem typeWithin?_eq_of_dropped (k : Nat) {n : NodeId}
    (hkept : ∀ a, s.tree.Under n a → a ∉ dropped) (hfree : ∀ d ∈ dropped, ¬ s.Relies d n) :
    { s with tree := u }.typeWithin? k n = s.typeWithin? k n := by
  -- the induction follows the inquiry: what is asked is kept and hangs on nothing dropped either
  induction k generalizing n with
  | zero => rfl
  | succ k ih =>
      have hnext {m : NodeId} (hm : s.asks? n = some m) :
          { s with tree := u }.typeWithin? k m = s.typeWithin? k m :=
        ih (kept_of_asks? h ht hkept hm) fun d hd hr => hfree d hd (.asks hm hr)
      simp only [typeWithin?, h.kind_eq, qualifier?_eq_of_dropped h (hkept n .refl),
        h.operands?_eq]
      cases hk : s.tree.kind n with
      | reference name =>
          dsimp only
          cases hq : s.qualifier? n with
          | none =>
              have hdeclared : u.declaredType? = s.tree.declaredType? := funext h.declaredType?_eq
              simp only [binding_eq_of_not_relies h ht hroot hkept hfree hk hq, bindingType?,
                hdeclared]
          | some receiver =>
              simp only [hnext (asks?_of_qualifier? hk hq), member?_eq_of_dropped h hroot,
                h.declaredType?_eq]
      | select =>
          dsimp only
          refine Option.bind_congr fun o ho => ?_
          exact hnext (asks?_of_operands? hk ho)
      | _ => rfl

/-- **Dropping keeps what names mean.** A name that was not dropped means what it meant before,
unless that hung on something that was dropped. -/
theorem resolve?_eq_of_dropped {n : NodeId} (hkept : ∀ a, s.tree.Under n a → a ∉ dropped)
    (hfree : ∀ d ∈ dropped, ¬ s.Relies d n) :
    { s with tree := u }.resolve? n = s.resolve? n := by
  simp only [resolve?, h.kind_eq]
  cases hk : s.tree.kind n with
  | reference name =>
      simp only [referent?, Tree.referenceName?, h.kind_eq, hk, Kind.referenceName?,
        qualifier?_eq_of_dropped h (hkept n .refl), typeOf?, h.size_eq]
      cases hq : s.qualifier? n with
      | none =>
          exact congrArg Binding.declaration?
            (binding_eq_of_not_relies h ht hroot hkept hfree hk hq)
      | some receiver =>
          have hm := asks?_of_qualifier? hk hq
          have htype := typeWithin?_eq_of_dropped h ht hroot s.tree.size
            (kept_of_asks? h ht hkept hm) fun d hd hr => hfree d hd (.asks hm hr)
          simp only [htype, member?_eq_of_dropped h hroot]
  | classRef name => exact classOf?_eq_of_dropped h hroot n
  | _ => rfl

end

end Source

/-! ## Parameters without a use -/

/-- Whether some parameters are not needed below a node: they do not lie above what is there, and
no name there means one of them. -/
structure Source.Spares (s : Source) (top : NodeId) (dropped : List NodeId) : Prop where
  isReference_top : (s.tree.kind top).isReference = false
  free : ∀ {n}, s.tree.Under n top → ∀ a, s.tree.Under n a → a ∉ dropped
  unused : ∀ {n}, s.tree.Under n top → (s.tree.kind n).isReference = true →
    ∀ d ∈ dropped, s.resolve? n ≠ some d

namespace Source

variable {s : Source}

/-- What is asked lies below the same node as the asking one, if that node is no name itself. -/
theorem under_of_asks? (ht : s.tree.WellFormed) {top n m : NodeId}
    (htop : (s.tree.kind top).isReference = false) (hn : s.tree.Under n top)
    (hm : s.asks? n = some m) : s.tree.Under m top := by
  unfold asks? at hm
  split at hm
  · next name hk =>
    obtain ⟨p, hp, ho⟩ := parent_of_qualifier? hm
    have hmem := (Tree.mem_children_of_operands? ho).1
    rcases Relation.ReflTransGen.cases_head hn with rfl | ⟨q, hq, hunder⟩
    · simp [hk, Kind.isReference] at htop
    · obtain rfl : p = q := Option.some.inj (hp.symm.trans hq)
      exact .head (ht.mem_children_iff.mp hmem) hunder
  · obtain ⟨o, ho, rfl⟩ := Option.map_eq_some_iff.mp hm
    exact .head (ht.mem_children_iff.mp (Tree.mem_children_of_operands? ho).2) hn
  · cases hm

namespace Spares

variable {top : NodeId} {dropped : List NodeId} (hs : s.Spares top dropped)

include hs

/-- Nothing below the node hangs on the parameters. -/
theorem not_relies (ht : s.tree.WellFormed) {n d : NodeId} (hn : s.tree.Under n top)
    (hd : d ∈ dropped) : ¬ s.Relies d n := by
  intro hr
  induction hr with
  | means hk hresolve => exact hs.unused hn (by simp [hk, Kind.isReference]) d hd hresolve
  | asks hm _ ih => exact ih (under_of_asks? ht hs.isReference_top hn hm)

/-- **Names below the node mean what they meant before.** -/
theorem resolve?_eq {u : Tree} {list : NodeId} (h : s.tree.Dropped list dropped u)
    (ht : s.tree.WellFormed) (hroot : s.tree.root ≠ list) {n : NodeId}
    (hn : s.tree.Under n top) :
    { s with tree := u }.resolve? n = s.resolve? n :=
  resolve?_eq_of_dropped h ht hroot (hs.free hn) fun _ hd => hs.not_relies ht hn hd

end Spares

theorem mem_namesBelow_iff (ht : s.tree.WellFormed) {top n : NodeId} (htop : top < s.tree.size) :
    n ∈ s.namesBelow top ↔ s.tree.Under n top ∧ (s.tree.kind n).isReference = true := by
  rw [namesBelow, List.mem_filter, ht.mem_descendants_iff htop]

/-- The names below a node that the list does not lie under are the same as before. -/
theorem namesBelow_eq_of_dropped (ht : s.tree.WellFormed) {u : Tree} {list top : NodeId}
    {dropped : List NodeId} (h : s.tree.Dropped list dropped u) (hlist : ¬ s.tree.Under list top) :
    { s with tree := u }.namesBelow top = s.namesBelow top := by
  have hpreorder (k : Nat) {n : NodeId} (hn : s.tree.Under n top) :
      u.preorder k n = s.tree.preorder k n := by
    induction k generalizing n with
    | zero => rfl
    | succ k ih =>
        have hne : n ≠ list := fun hnl => hlist (hnl ▸ hn)
        rw [Tree.preorder, Tree.preorder, h.children_eq hne]
        refine congrArg _ (List.flatMap_congr fun c hc => ih ?_)
        exact .head (ht.mem_children_iff.mp hc) hn
  simp only [namesBelow, Tree.descendants, h.size_eq, hpreorder _ .refl, h.kind_eq]

end Source

end ComponentAudit
