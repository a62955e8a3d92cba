import ComponentAudit.Proofs.Edit.Transaction

set_option autoImplicit false

/-! # What drafting adds to a tree

A draft makes new nodes and hangs nodes that hung nowhere below them. Whatever was there keeps its
kind, its children and its place, so a subtree that was drawn once stays as it was drawn
(`Tree.Built.grown`) and its description can be put together from those of its parts.

Main statement: `Blueprint.drawn_draft`, the parts of a drafted builder function.
-/

namespace ComponentAudit

namespace Tree

/-! ## Growing -/

/-- Whether a node has a kind and exactly these children. -/
structure Built (t : Tree) (n : NodeId) (k : Kind) (cs : List NodeId) : Prop where
  lt_size : n < t.size
  kind_eq : t.kind n = k
  children_eq : t.children n = cs

/-- Whether a tree comes from another one by new nodes, below which some of the old ones were
hung. -/
structure Grown (t : Tree) (adopted : List NodeId) (u : Tree) : Prop where
  wellFormed : u.WellFormed
  root_eq : u.root = t.root
  size_le : t.size ≤ u.size
  kind_eq : ∀ {n : NodeId}, n < t.size → u.kind n = t.kind n
  children_eq : ∀ {n : NodeId}, n < t.size → u.children n = t.children n
  parent_eq : ∀ {n : NodeId}, n < t.size → n ∉ adopted → u.parent n = t.parent n

/-- A node that a draft made out of nothing and of the adopted nodes. It hangs nowhere yet. -/
structure Drafted (t : Tree) (adopted : List NodeId) (made : NodeId × Tree) (k : Kind)
    (cs : List NodeId) : Prop where
  grown : t.Grown adopted made.2
  new : t.size ≤ made.1
  free : made.2.parent made.1 = none
  built : made.2.Built made.1 k cs

variable {t u v : Tree} {adopted : List NodeId}

theorem Built.grown {n : NodeId} {k : Kind} {cs : List NodeId} (h : t.Built n k cs)
    (hu : t.Grown adopted u) : u.Built n k cs where
  lt_size := Nat.lt_of_lt_of_le h.lt_size hu.size_le
  kind_eq := (hu.kind_eq h.lt_size).trans h.kind_eq
  children_eq := (hu.children_eq h.lt_size).trans h.children_eq

namespace Grown

theorem refl (ht : t.WellFormed) : t.Grown adopted t where
  wellFormed := ht
  root_eq := rfl
  size_le := Nat.le_refl _
  kind_eq _ := rfl
  children_eq _ := rfl
  parent_eq _ _ := rfl

theorem mono {adopted' : List NodeId} (h : t.Grown adopted u) (hsub : adopted ⊆ adopted') :
    t.Grown adopted' u :=
  { h with parent_eq := fun hn hnot => h.parent_eq hn fun hmem => hnot (hsub hmem) }

/-- Growing on. What the second part adopts may be new to the first tree. -/
theorem trans {adopted' : List NodeId} (h : t.Grown adopted u) (h' : u.Grown adopted' v)
    (hnew : ∀ n ∈ adopted', n ∈ adopted ∨ t.size ≤ n) : t.Grown adopted v where
  wellFormed := h'.wellFormed
  root_eq := h'.root_eq.trans h.root_eq
  size_le := Nat.le_trans h.size_le h'.size_le
  kind_eq hn := (h'.kind_eq (Nat.lt_of_lt_of_le hn h.size_le)).trans (h.kind_eq hn)
  children_eq hn := (h'.children_eq (Nat.lt_of_lt_of_le hn h.size_le)).trans (h.children_eq hn)
  parent_eq := by
    intro n hn hnot
    have hnot' : n ∉ adopted' := by
      intro hmem
      rcases hnew n hmem with h | h
      · exact hnot h
      · exact absurd hn (Nat.not_lt_of_le h)
    exact (h'.parent_eq (Nat.lt_of_lt_of_le hn h.size_le) hnot').trans (h.parent_eq hn hnot)

theorem push (h : t.Grown adopted u) (k : Kind) : t.Grown adopted (u.push k) where
  wellFormed := h.wellFormed.push k
  root_eq := h.root_eq
  size_le := by
    rw [size_push]
    exact Nat.le_succ_of_le h.size_le
  kind_eq := by
    intro n hn
    rw [kind_push, if_neg (Nat.ne_of_lt (Nat.lt_of_lt_of_le hn h.size_le)), h.kind_eq hn]
  children_eq hn := (children_push ..).trans (h.children_eq hn)
  parent_eq hn hnot := (parent_push ..).trans (h.parent_eq hn hnot)

end Grown

/-- Hanging nodes that hang nowhere below a new one. -/
theorem Grown.adopt {id : NodeId} {ids : List NodeId} (h : t.Grown adopted u)
    (hnew : t.size ≤ id) (hlt : id < u.size) (hfree : u.parent id = none)
    (hids : ∀ n ∈ ids, n ∈ adopted ∨ t.size ≤ n)
    (hloose : ∀ n ∈ ids, n < u.size ∧ u.parent n = none ∧ n ≠ id) (hnodup : ids.Nodup) :
    t.Drafted adopted (id, ids.foldl (·.appendChild id) u) (u.kind id) (u.children id ++ ids) := by
  induction ids generalizing u with
  | nil => exact ⟨h, hnew, hfree, hlt, rfl, (List.append_nil _).symm⟩
  | cons n ids ih =>
      obtain ⟨hn, hparent, hne⟩ := hloose n List.mem_cons_self
      obtain ⟨hnot, hnodup⟩ := List.nodup_cons.mp hnodup
      have hunder : ¬ u.Under id n := fun hunder =>
        hne (eq_of_under_of_parent_none hfree hunder).symm
      have hchildren (m : NodeId) : (u.appendChild id n).children m =
          if m = id then u.children m ++ [n] else u.children m := by
        rw [children_appendChild, detach_of_parent_none hparent]
        by_cases hm : m = id
        · rw [if_pos ⟨hm, hm ▸ hlt⟩, if_pos hm]
        · rw [if_neg fun hboth => hm hboth.1, if_neg hm]
      have hgrown : t.Grown adopted (u.appendChild id n) := by
        refine ⟨h.wellFormed.appendChild hn hlt hunder, ?_, ?_, ?_, ?_, ?_⟩
        · rw [root_appendChild, h.root_eq]
        · rw [size_appendChild]
          exact h.size_le
        · intro m hm
          rw [kind_appendChild, h.kind_eq hm]
        · intro m hm
          rw [hchildren, if_neg (Nat.ne_of_lt (Nat.lt_of_lt_of_le hm hnew)), h.children_eq hm]
        · intro m hm hout
          have hmn : m ≠ n := by
            rintro rfl
            rcases hids m List.mem_cons_self with hmem | hle
            · exact hout hmem
            · exact absurd hm (Nat.not_lt_of_le hle)
          rw [parent_appendChild _ _ _ _ hn, if_neg hmn, h.parent_eq hm hout]
      have hfree' : (u.appendChild id n).parent id = none := by
        rw [parent_appendChild _ _ _ _ hn, if_neg hne.symm, hfree]
      have hrest := ih hgrown (by simpa using hlt) hfree'
        (fun m hm => hids m (List.mem_cons_of_mem _ hm))
        (fun m hm => by
          obtain ⟨hmlt, hmfree, hmid⟩ := hloose m (List.mem_cons_of_mem _ hm)
          have hmn : m ≠ n := by
            rintro rfl
            exact hnot hm
          refine ⟨by simpa using hmlt, ?_, hmid⟩
          rw [parent_appendChild _ _ _ _ hn, if_neg hmn, hmfree])
        hnodup
      rw [kind_appendChild, hchildren, if_pos rfl, List.append_assoc] at hrest
      exact hrest

/-! ## Spare nodes -/

/-- Nodes from a number on that hang nowhere. -/
structure Spare (t : Tree) (base : Nat) (ids : List NodeId) : Prop where
  new : ∀ n ∈ ids, base ≤ n
  lt_size : ∀ n ∈ ids, n < t.size
  free : ∀ n ∈ ids, t.parent n = none
  nodup : ids.Nodup

namespace Spare

variable {base : Nat} {ids ids' : List NodeId}

theorem nil : t.Spare base [] := ⟨by simp, by simp, by simp, List.nodup_nil⟩

/-- What is not adopted stays spare. -/
theorem grown (h : t.Spare base ids) (hu : t.Grown adopted u) (hids : ∀ n ∈ ids, n ∉ adopted) :
    u.Spare base ids where
  new := h.new
  lt_size n hn := Nat.lt_of_lt_of_le (h.lt_size n hn) hu.size_le
  free n hn := (hu.parent_eq (h.lt_size n hn) (hids n hn)).trans (h.free n hn)
  nodup := h.nodup

/-- Spare nodes with newer ones. -/
theorem append {base' : Nat} (h : t.Spare base ids) (h' : t.Spare base' ids') (hle : base ≤ base')
    (hlt : ∀ n ∈ ids, n < base') : t.Spare base (ids ++ ids') where
  new := by
    intro n hn
    rcases List.mem_append.mp hn with hn | hn
    · exact h.new n hn
    · exact Nat.le_trans hle (h'.new n hn)
  lt_size n hn := (List.mem_append.mp hn).elim (h.lt_size n) (h'.lt_size n)
  free n hn := (List.mem_append.mp hn).elim (h.free n) (h'.free n)
  nodup := by
    refine List.nodup_append.mpr ⟨h.nodup, h'.nodup, ?_⟩
    intro n hn m hm
    exact Nat.ne_of_lt (Nat.lt_of_lt_of_le (hlt n hn) (h'.new m hm))

theorem perm (h : t.Spare base ids) (hperm : ids.Perm ids') : t.Spare base ids' where
  new n hn := h.new n (hperm.mem_iff.mpr hn)
  lt_size n hn := h.lt_size n (hperm.mem_iff.mpr hn)
  free n hn := h.free n (hperm.mem_iff.mpr hn)
  nodup := hperm.nodup_iff.mp h.nodup

theorem of_sublist (h : t.Spare base ids') (hsub : ids.Sublist ids') : t.Spare base ids where
  new n hn := h.new n (hsub.subset hn)
  lt_size n hn := h.lt_size n (hsub.subset hn)
  free n hn := h.free n (hsub.subset hn)
  nodup := h.nodup.sublist hsub

end Spare

theorem Drafted.spare {made : NodeId × Tree} {k : Kind} {cs : List NodeId}
    (h : t.Drafted adopted made k cs) : made.2.Spare t.size [made.1] := by
  refine ⟨?_, ?_, ?_, List.nodup_singleton _⟩
  all_goals
    intro n hn
    obtain rfl := List.mem_singleton.mp hn
  · exact h.new
  · exact h.built.lt_size
  · exact h.free

/-- Spare nodes with one that is made after them. -/
theorem Spare.drafted {base : Nat} {ids cs : List NodeId} {made : NodeId × Tree} {k : Kind}
    (h : t.Spare base ids) (hbase : base ≤ t.size) (hd : t.Drafted adopted made k cs)
    (hids : ∀ n ∈ ids, n ∉ adopted) : made.2.Spare base (ids ++ [made.1]) :=
  (h.grown hd.grown hids).append hd.spare hbase h.lt_size

/-! ## Single nodes -/

variable (ht : t.WellFormed)

include ht

theorem drafted_leaf (k : Kind) : t.Drafted [] ((Draft.leaf k).run t) k [] where
  grown := (Grown.refl ht).push k
  new := Nat.le_refl _
  free := by
    show (t.push k).parent t.size = none
    rw [parent_push, parent_of_le (Nat.le_refl _)]
  built := by
    refine ⟨?_, ?_, children_push_new ..⟩
    · show t.size < (t.push k).size
      simp
    · show (t.push k).kind t.size = k
      rw [kind_push, if_pos rfl]

/-- A new node with spare nodes as its children. -/
theorem drafted_branch (k : Kind) {base : Nat} {ids : List NodeId} (hids : t.Spare base ids) :
    t.Drafted ids ((Draft.branch k ids).run t) k ids := by
  have hleaf := drafted_leaf ht k
  have hgrown : t.Grown ids (t.push k) := (Grown.refl ht).push k
  have hadopt := hgrown.adopt hleaf.new hleaf.built.lt_size hleaf.free (fun n hn => .inl hn)
    (fun n hn => by
      have hlt := hids.lt_size n hn
      refine ⟨?_, (parent_push ..).trans (hids.free n hn), Nat.ne_of_lt hlt⟩
      rw [size_push]
      exact Nat.lt_succ_of_lt hlt) hids.nodup
  have hkind : (t.push k).kind t.size = k := hleaf.built.kind_eq
  have hchildren : (t.push k).children t.size = [] := hleaf.built.children_eq
  rw [show ((Draft.leaf k).run t).1 = t.size from rfl, hkind, hchildren, List.nil_append] at hadopt
  exact hadopt

end Tree

/-! ## Expressions and declarations -/

namespace Tree

/-- Whether nodes write a type on a declaration, or nothing where there is no type. -/
def Annotates (t : Tree) : Option TypeExpr → List NodeId → Prop
  | none, cs => cs = []
  | some type, cs => ∃ r, cs = [r] ∧ t.Built r (.typeRef type) []

/-- The parts of a statement `receiver.member = value`, all three of them names. -/
structure StoreParts (t : Tree) (statement : NodeId) (receiver member value : String)
    (place r m v : NodeId) : Prop where
  statement : t.Built statement .assign [place, v]
  place : t.Built place .select [r, m]
  receiver : t.Built r (.reference receiver) []
  member : t.Built m (.reference member) []
  value : t.Built v (.reference value) []

variable {t u : Tree} {adopted : List NodeId}

theorem Annotates.grown {type : Option TypeExpr} {cs : List NodeId} (h : t.Annotates type cs)
    (hu : t.Grown adopted u) : u.Annotates type cs := by
  cases type with
  | none => exact h
  | some type =>
      obtain ⟨r, hcs, hr⟩ := h
      exact ⟨r, hcs, hr.grown hu⟩

theorem StoreParts.grown {statement place r m v : NodeId} {receiver member value : String}
    (h : t.StoreParts statement receiver member value place r m v) (hu : t.Grown adopted u) :
    u.StoreParts statement receiver member value place r m v where
  statement := h.statement.grown hu
  place := h.place.grown hu
  receiver := h.receiver.grown hu
  member := h.member.grown hu
  value := h.value.grown hu

variable (ht : t.WellFormed)

include ht

theorem drafted_parameter (name : String) (type : Option TypeExpr) (initial : Option String) :
    ∃ cs, t.Drafted [] ((Draft.parameter name type initial).run t) (.parameter name initial) cs ∧
      ((Draft.parameter name type initial).run t).2.Annotates type cs := by
  have hleaf := drafted_leaf ht (.parameter name initial)
  cases type with
  | none => exact ⟨[], hleaf, rfl⟩
  | some type =>
      set u := t.push (.parameter name initial) with hu
      have hgrown : t.Grown [] u := hleaf.grown
      have htype := drafted_leaf hgrown.wellFormed (.typeRef type)
      have hfree : (u.push (.typeRef type)).parent u.size = none := htype.free
      have hbuilt : (u.push (.typeRef type)).Built t.size (.parameter name initial) [] :=
        hleaf.built.grown htype.grown
      have hadopt := @Grown.adopt _ _ _ t.size [u.size] (hgrown.push (.typeRef type)) hleaf.new
        hbuilt.lt_size ((parent_push ..).trans hleaf.free)
        (fun n hn => by
          obtain rfl := List.mem_singleton.mp hn
          exact .inr hgrown.size_le)
        (fun n hn => by
          obtain rfl := List.mem_singleton.mp hn
          exact ⟨htype.built.lt_size, hfree, Nat.ne_of_gt hleaf.built.lt_size⟩)
        (List.nodup_singleton _)
      rw [hbuilt.kind_eq, hbuilt.children_eq, List.nil_append] at hadopt
      refine ⟨[u.size], hadopt, u.size, rfl, ?_⟩
      -- the type was made after the parameter that adopts it, and is a leaf all the same
      show ((u.push (.typeRef type)).appendChild t.size u.size).Built u.size (.typeRef type) []
      refine ⟨?_, ?_, ?_⟩
      · rw [size_appendChild]
        exact htype.built.lt_size
      · rw [kind_appendChild]
        exact htype.built.kind_eq
      · have hne : u.size ≠ t.size := by simp [hu]
        rw [children_appendChild, if_neg fun h => hne h.1, detach_of_parent_none hfree]
        exact htype.built.children_eq

theorem drafted_assignMember (receiver member value : String) :
    ∃ place r m v, t.Drafted [] ((Draft.assignMember receiver member value).run t) .assign
        [place, v] ∧
      ((Draft.assignMember receiver member value).run t).2.StoreParts
        ((Draft.assignMember receiver member value).run t).1 receiver member value place r m v := by
  simp only [Draft.assignMember, Draft.run_bind, Draft.reference, Draft.select, Draft.assign]
  -- each node is forgotten once it is described, or else the tree is built again and again
  have h₁ := drafted_leaf ht (.reference receiver)
  generalize (Draft.leaf (.reference receiver)).run t = p₁ at h₁ ⊢
  have h₂ := drafted_leaf h₁.grown.wellFormed (.reference member)
  generalize (Draft.leaf (.reference member)).run p₁.2 = p₂ at h₂ ⊢
  have hspare₂ : p₂.2.Spare t.size [p₁.1, p₂.1] :=
    h₁.spare.drafted h₁.grown.size_le h₂ (by simp)
  have h₃ := drafted_branch h₂.grown.wellFormed .select hspare₂
  generalize (Draft.branch .select [p₁.1, p₂.1]).run p₂.2 = p₃ at h₃ ⊢
  have h₄ := drafted_leaf h₃.grown.wellFormed (.reference value)
  generalize (Draft.leaf (.reference value)).run p₃.2 = p₄ at h₄ ⊢
  have hspare₄ : p₄.2.Spare p₂.2.size [p₃.1, p₄.1] :=
    h₃.spare.drafted h₃.grown.size_le h₄ (by simp)
  have h₅ := drafted_branch h₄.grown.wellFormed .assign hspare₄
  generalize (Draft.branch .assign [p₃.1, p₄.1]).run p₄.2 = p₅ at h₅ ⊢
  have hgrown₂ : t.Grown [] p₂.2 := h₁.grown.trans h₂.grown (by simp)
  have hgrown₃ : t.Grown [] p₃.2 := hgrown₂.trans h₃.grown fun n hn => .inr (hspare₂.new n hn)
  have hgrown₄ : t.Grown [] p₄.2 := hgrown₃.trans h₄.grown (by simp)
  have hgrown₅ : t.Grown [] p₅.2 := hgrown₄.trans h₅.grown fun n hn =>
    .inr (Nat.le_trans hgrown₂.size_le (hspare₄.new n hn))
  refine ⟨p₃.1, p₁.1, p₂.1, p₄.1, ⟨hgrown₅, ?_, h₅.free, h₅.built⟩, h₅.built, ?_, ?_, ?_, ?_⟩
  · exact Nat.le_trans hgrown₄.size_le h₅.new
  · exact (h₃.built.grown h₄.grown).grown h₅.grown
  · exact (((h₁.built.grown h₂.grown).grown h₃.grown).grown h₄.grown).grown h₅.grown
  · exact ((h₂.built.grown h₃.grown).grown h₄.grown).grown h₅.grown
  · exact h₄.built.grown h₅.grown

theorem drafted_call (callee : String) {base : Nat} (args : List NodeId) (lambda : Option NodeId)
    (hargs : t.Spare base (args ++ lambda.toList)) (hbase : base ≤ t.size) :
    ∃ c, t.Drafted (args ++ lambda.toList) ((Draft.call callee args lambda).run t) .call
        (c :: (args ++ lambda.toList)) ∧
      ((Draft.call callee args lambda).run t).2.Built c (.reference callee) [] := by
  generalize hids : args ++ lambda.toList = ids at hargs ⊢
  have hrun : (Draft.call callee args lambda).run t =
      (Draft.branch .call (((Draft.leaf (.reference callee)).run t).1 :: ids)).run
        ((Draft.leaf (.reference callee)).run t).2 := by
    rw [← hids]
    rfl
  rw [hrun]
  have h₁ := drafted_leaf ht (.reference callee)
  generalize (Draft.leaf (.reference callee)).run t = p₁ at h₁ ⊢
  have hspare : p₁.2.Spare base (p₁.1 :: ids) :=
    (hargs.drafted hbase h₁ (by simp)).perm (List.perm_append_singleton ..)
  have h₂ := drafted_branch h₁.grown.wellFormed .call hspare
  generalize (Draft.branch .call (p₁.1 :: ids)).run p₁.2 = p₂ at h₂ ⊢
  refine ⟨p₁.1, ⟨(h₁.grown.mono (by simp)).trans h₂.grown ?_, ?_, h₂.free, h₂.built⟩,
    h₁.built.grown h₂.grown⟩
  · intro n hn
    rcases List.mem_cons.mp hn with rfl | hn
    · exact .inr h₁.new
    · exact .inl hn
  · exact Nat.le_trans h₁.grown.size_le h₂.new

theorem drafted_lambda {base : Nat} {statements : List NodeId}
    (hstatements : t.Spare base statements) :
    ∃ b, t.Drafted statements ((Draft.lambda statements).run t) .lambda [b] ∧
      ((Draft.lambda statements).run t).2.Built b .block statements := by
  simp only [Draft.lambda, Draft.run_bind, Draft.block]
  have h₁ := drafted_branch ht .block hstatements
  generalize (Draft.branch .block statements).run t = p₁ at h₁ ⊢
  have h₂ := drafted_branch h₁.grown.wellFormed .lambda h₁.spare
  generalize (Draft.branch .lambda [p₁.1]).run p₁.2 = p₂ at h₂ ⊢
  refine ⟨p₁.1, ⟨h₁.grown.trans h₂.grown ?_, ?_, h₂.free, h₂.built⟩, h₁.built.grown h₂.grown⟩
  · intro n hn
    obtain rfl := List.mem_singleton.mp hn
    exact .inr h₁.new
  · exact Nat.le_trans h₁.grown.size_le h₂.new

theorem drafted_function (decl : FunctionDecl) {base : Nat} {parameters : List NodeId}
    {body : NodeId} (hparts : t.Spare base (parameters ++ [body])) :
    ∃ list, t.Drafted (parameters ++ [body]) ((Draft.function decl parameters body).run t)
        (.function decl) [list, body] ∧
      ((Draft.function decl parameters body).run t).2.Built list .parameterList parameters := by
  simp only [Draft.function, Draft.run_bind, Draft.parameterList]
  have h₁ := drafted_branch ht .parameterList (hparts.of_sublist (List.sublist_append_left ..))
  generalize (Draft.branch .parameterList parameters).run t = p₁ at h₁ ⊢
  have hbody : p₁.2.Spare base [body] := by
    refine (hparts.of_sublist (List.sublist_append_right ..)).grown h₁.grown ?_
    intro n hn hmem
    exact (List.nodup_append.mp hparts.nodup).2.2 n hmem n hn rfl
  have hlt : body < t.size := hparts.lt_size body (by simp)
  have hspare : p₁.2.Spare 0 [p₁.1, body] :=
    (({ hbody with new := by simp } : p₁.2.Spare 0 [body]).append h₁.spare (Nat.zero_le _)
      (by simpa using hlt)).perm (.swap ..)
  have h₂ := drafted_branch h₁.grown.wellFormed (.function decl) hspare
  generalize (Draft.branch (.function decl) [p₁.1, body]).run p₁.2 = p₂ at h₂ ⊢
  refine ⟨p₁.1, ⟨(h₁.grown.mono (by simp)).trans h₂.grown ?_, ?_, h₂.free, h₂.built⟩,
    h₁.built.grown h₂.grown⟩
  · intro n hn
    rcases List.mem_pair.mp hn with rfl | rfl
    · exact .inr h₁.new
    · exact .inl (by simp)
  · exact Nat.le_trans h₁.grown.size_le h₂.new

end Tree

/-! ## Builder functions -/

namespace Blueprint

/-- Whether parameters and statements are those of some fields: for each field with a name a
parameter of its type, and an assignment on a line of its own. -/
inductive FieldParts (t : Tree) (attrs : String) : List Field → List NodeId → List NodeId → Prop
  | nil : FieldParts t attrs [] [] []
  | unnamed {f : Field} {fs : List Field} {ps ss : List NodeId} (hname : f.name = none)
      (rest : FieldParts t attrs fs ps ss) : FieldParts t attrs (f :: fs) ps ss
  | named {f : Field} {fs : List Field} {ps ss cs : List NodeId} {name : String}
      {p st newline place r m v : NodeId} (hname : f.name = some name)
      (parameter : t.Built p (.parameter name none) cs) (type : t.Annotates f.type cs)
      (store : t.StoreParts st attrs name name place r m v)
      (blank : t.Built newline (.blank "\n") []) (rest : FieldParts t attrs fs ps ss) :
      FieldParts t attrs (f :: fs) (p :: ps) (st :: newline :: ss)

theorem FieldParts.grown {t u : Tree} {adopted : List NodeId} {attrs : String} {fs : List Field}
    {ps ss : List NodeId} (h : FieldParts t attrs fs ps ss) (hu : t.Grown adopted u) :
    FieldParts u attrs fs ps ss := by
  induction h with
  | nil => exact .nil
  | unnamed hname _ ih => exact .unnamed hname ih
  | named hname parameter type store blank _ ih =>
      exact .named hname (parameter.grown hu) (type.grown hu) (store.grown hu) (blank.grown hu) ih

/-- **The parts that are drafted for the fields**, all new and hanging nowhere. -/
theorem grown_draftFields (attrs : String) (fields : List Field) {t : Tree} (ht : t.WellFormed) :
    ∃ u ps ss, (draftFields attrs fields).run t = ((ps, ss), u) ∧ t.Grown [] u ∧
      u.Spare t.size (ps ++ ss) ∧ FieldParts u attrs fields ps ss := by
  induction fields generalizing t with
  | nil => exact ⟨t, [], [], rfl, .refl ht, .nil, .nil⟩
  | cons f fields ih =>
      cases hname : f.name with
      | none =>
          obtain ⟨u, ps, ss, hrun, hgrown, hspare, hparts⟩ := ih ht
          refine ⟨u, ps, ss, ?_, hgrown, hspare, .unnamed hname hparts⟩
          rw [draftFields, hname]
          exact hrun
      | some name =>
          have hrun₀ : (draftFields attrs (f :: fields)).run t =
              ((Draft.parameter name f.type none) >>= fun p =>
                (Draft.assignMember attrs name name) >>= fun st => Draft.newline >>= fun nl =>
                  (draftFields attrs fields) >>= fun rest =>
                    pure (p :: rest.1, st :: nl :: rest.2)).run t := by
            rw [draftFields, hname]
          rw [hrun₀]
          simp only [Draft.run_bind]
          obtain ⟨cs, h₁, htype⟩ := Tree.drafted_parameter ht name f.type none
          generalize (Draft.parameter name f.type none).run t = p₁ at h₁ htype ⊢
          obtain ⟨place, r, m, v, h₂, hstore⟩ :=
            Tree.drafted_assignMember h₁.grown.wellFormed attrs name name
          generalize (Draft.assignMember attrs name name).run p₁.2 = p₂ at h₂ hstore ⊢
          have h₃ : p₂.2.Drafted [] (Draft.newline.run p₂.2) (.blank "\n") [] :=
            Tree.drafted_leaf h₂.grown.wellFormed _
          generalize Draft.newline.run p₂.2 = p₃ at h₃ ⊢
          obtain ⟨u, ps, ss, hrun, hgrown, hspare, hparts⟩ := ih h₃.grown.wellFormed
          rw [hrun]
          have hgrown₂ : t.Grown [] p₂.2 := h₁.grown.trans h₂.grown (by simp)
          have hgrown₃ : t.Grown [] p₃.2 := hgrown₂.trans h₃.grown (by simp)
          -- the three nodes of the field are older than the rest
          have hthree : p₃.2.Spare t.size [p₁.1, p₂.1, p₃.1] :=
            (h₁.spare.drafted h₁.grown.size_le h₂ (by simp)).drafted hgrown₂.size_le h₃ (by simp)
          refine ⟨u, p₁.1 :: ps, p₂.1 :: p₃.1 :: ss, rfl, hgrown₃.trans hgrown (by simp), ?_, ?_⟩
          · refine ((hthree.grown hgrown (by simp)).append hspare hgrown₃.size_le
              hthree.lt_size).perm (.cons _ ?_)
            exact (List.perm_append_comm_assoc [p₂.1, p₃.1] ps ss)
          · have hparameter := ((h₁.built.grown h₂.grown).grown h₃.grown).grown hgrown
            have htype' := ((htype.grown h₂.grown).grown h₃.grown).grown hgrown
            have hstore' := (hstore.grown h₃.grown).grown hgrown
            exact .named hname hparameter htype' hstore' (h₃.built.grown hgrown) hparts

/-- The nodes of a builder function. -/
structure Nodes where
  function : NodeId
  list : NodeId
  /-- The parameters for the fields. -/
  parameters : List NodeId
  /-- The parameter for the children. -/
  handler : NodeId
  handlerType : NodeId
  call : NodeId
  callee : NodeId
  classRef : NodeId
  lambda : NodeId
  block : NodeId
  /-- The assignments, each with a blank behind it. -/
  statements : List NodeId
  /-- The call of the parameter for the children. -/
  bodyCall : NodeId
  bodyName : NodeId

/-- What a builder function declares: its name and the type that it extends. -/
def declaration (b : Blueprint) (fw : Framework) : FunctionDecl :=
  { name := some b.functionName, receiver := some (.simple fw.builderReceiver) }

/-- Whether a builder function is drawn as a blueprint says. -/
structure Drawn (b : Blueprint) (fw : Framework) (t : Tree) (n : Nodes) : Prop where
  function : t.Built n.function (.function (b.declaration fw)) [n.list, n.call]
  list : t.Built n.list .parameterList (n.parameters ++ [n.handler])
  handler : t.Built n.handler (.parameter b.bodyParameter (some "\x7b\x7d")) [n.handlerType]
  handlerType : t.Built n.handlerType (.typeRef (.generic fw.handlerType [b.propsType])) []
  call : t.Built n.call .call [n.callee, n.classRef, n.lambda]
  callee : t.Built n.callee (.reference fw.constructionFunction) []
  classRef : t.Built n.classRef (.classRef b.componentName) []
  lambda : t.Built n.lambda .lambda [n.block]
  block : t.Built n.block .block (n.statements ++ [n.bodyCall])
  bodyCall : t.Built n.bodyCall .call [n.bodyName]
  bodyName : t.Built n.bodyName (.reference b.bodyParameter) []
  fields : FieldParts t fw.attrsMember b.fields n.parameters n.statements

/-- **A drafted builder function is drawn as its blueprint says**, out of new nodes only, and hangs
nowhere. -/
theorem drawn_draft (b : Blueprint) (fw : Framework) {t : Tree} (ht : t.WellFormed) :
    ∃ n u, (b.draft fw).run t = (n.function, u) ∧ t.Grown [] u ∧ t.size ≤ n.function ∧
      u.parent n.function = none ∧ b.Drawn fw u n := by
  simp only [draft, Draft.run_bind]
  obtain ⟨u₁, ps, ss, hrun, h₁, hspare₁, hfields⟩ := grown_draftFields fw.attrsMember b.fields ht
  simp only [hrun]
  obtain ⟨types, h₂, htype⟩ := Tree.drafted_parameter h₁.wellFormed b.bodyParameter
    (some (.generic fw.handlerType [b.propsType])) (some "\x7b\x7d")
  generalize (Draft.parameter b.bodyParameter (some (.generic fw.handlerType [b.propsType]))
    (some "\x7b\x7d")).run u₁ = p₂ at h₂ htype ⊢
  obtain ⟨ty, rfl, hty⟩ := htype
  obtain ⟨name, h₃, hname⟩ := Tree.drafted_call h₂.grown.wellFormed b.bodyParameter [] none
    (Tree.Spare.nil : p₂.2.Spare 0 []) (Nat.zero_le _)
  generalize (Draft.call b.bodyParameter [] none).run p₂.2 = p₃ at h₃ hname ⊢
  -- what is spare so far: the parts of the parameter list, and those of the block
  have hspare₃ : p₃.2.Spare t.size ((ps ++ [p₂.1]) ++ (ss ++ [p₃.1])) := by
    have hspare₂ := hspare₁.drafted h₁.size_le h₂ (by simp)
    have hle := Nat.le_trans h₁.size_le h₂.grown.size_le
    refine (hspare₂.drafted hle h₃ (by simp)).perm ?_
    simp only [List.append_assoc]
    refine .append_left ps ?_
    simp only [← List.append_assoc]
    exact .append_right _ List.perm_append_comm
  obtain ⟨block, h₄, hblock⟩ := Tree.drafted_lambda h₃.grown.wellFormed
    (hspare₃.of_sublist (List.sublist_append_right ..))
  generalize (Draft.lambda (ss ++ [p₃.1])).run p₃.2 = p₄ at h₄ hblock ⊢
  have h₅ : p₄.2.Drafted [] ((Draft.classRef b.componentName).run p₄.2) _ [] :=
    Tree.drafted_leaf h₄.grown.wellFormed (.classRef b.componentName)
  generalize (Draft.classRef b.componentName).run p₄.2 = p₅ at h₅ ⊢
  have hspare₅ : p₅.2.Spare p₃.2.size [p₅.1, p₄.1] :=
    (h₄.spare.drafted h₄.grown.size_le h₅ (by simp)).perm (.swap ..)
  obtain ⟨callee, h₆, hcallee⟩ := Tree.drafted_call h₅.grown.wellFormed fw.constructionFunction
    [p₅.1] (some p₄.1) hspare₅ (Nat.le_trans h₄.grown.size_le h₅.grown.size_le)
  generalize (Draft.call fw.constructionFunction [p₅.1] (some p₄.1)).run p₅.2 = p₆ at h₆ hcallee ⊢
  have hgrown₃ : t.Grown [] p₃.2 := (h₁.trans h₂.grown (by simp)).trans h₃.grown (by simp)
  have hsize₃ : p₃.2.size ≤ p₅.2.size := Nat.le_trans h₄.grown.size_le h₅.grown.size_le
  have hspare₆ : p₆.2.Spare t.size (ps ++ [p₂.1] ++ [p₆.1]) := by
    have hparameters : p₃.2.Spare t.size (ps ++ [p₂.1]) :=
      hspare₃.of_sublist (List.sublist_append_left ..)
    have hspare₄ := hparameters.grown h₄.grown fun n hn hmem =>
      (List.nodup_append.mp hspare₃.nodup).2.2 n hn n hmem rfl
    have hkept := hspare₄.grown h₅.grown (by simp)
    exact hkept.drafted (Nat.le_trans hgrown₃.size_le hsize₃) h₆ fun n hn hmem =>
      Nat.not_lt_of_le (hspare₅.new n hmem) (hparameters.lt_size n hn)
  obtain ⟨list, h₇, hlist⟩ := Tree.drafted_function h₆.grown.wellFormed (b.declaration fw) hspare₆
  rw [← declaration]
  generalize (Draft.function (b.declaration fw) (ps ++ [p₂.1]) p₆.1).run p₆.2 = p₇ at h₇ hlist ⊢
  have hgrown₄ : t.Grown [] p₄.2 := hgrown₃.trans h₄.grown fun n hn =>
    .inr (hspare₃.new n (List.mem_append_right _ hn))
  have hgrown₆ : t.Grown [] p₆.2 :=
    (hgrown₄.trans h₅.grown (by simp)).trans h₆.grown fun n hn =>
      .inr (Nat.le_trans hgrown₃.size_le (hspare₅.new n hn))
  refine ⟨⟨p₇.1, list, ps, p₂.1, ty, p₆.1, callee, p₅.1, p₄.1, block, ss, p₃.1, name⟩, p₇.2, rfl,
    hgrown₆.trans h₇.grown fun n hn => .inr (hspare₆.new n hn),
    Nat.le_trans hgrown₆.size_le h₇.new, h₇.free, ?_⟩
  -- each part stays as it was drawn, whatever is drawn after it
  have keep₆ {n : NodeId} {k : Kind} {cs : List NodeId} (h : p₆.2.Built n k cs) :
      p₇.2.Built n k cs := h.grown h₇.grown
  have keep₅ {n : NodeId} {k : Kind} {cs : List NodeId} (h : p₅.2.Built n k cs) :
      p₇.2.Built n k cs := keep₆ (h.grown h₆.grown)
  have keep₄ {n : NodeId} {k : Kind} {cs : List NodeId} (h : p₄.2.Built n k cs) :
      p₇.2.Built n k cs := keep₅ (h.grown h₅.grown)
  have keep₃ {n : NodeId} {k : Kind} {cs : List NodeId} (h : p₃.2.Built n k cs) :
      p₇.2.Built n k cs := keep₄ (h.grown h₄.grown)
  have keep₂ {n : NodeId} {k : Kind} {cs : List NodeId} (h : p₂.2.Built n k cs) :
      p₇.2.Built n k cs := keep₃ (h.grown h₃.grown)
  exact {
    function := h₇.built
    list := hlist
    handler := keep₂ h₂.built
    handlerType := keep₂ hty
    call := keep₆ h₆.built
    callee := keep₆ hcallee
    classRef := keep₅ h₅.built
    lambda := keep₄ h₄.built
    block := keep₄ hblock
    bodyCall := keep₃ h₃.built
    bodyName := keep₃ hname
    fields := (((((hfields.grown h₂.grown).grown h₃.grown).grown h₄.grown).grown h₅.grown).grown
      h₆.grown).grown h₇.grown }

end Blueprint

/-! ## Putting the function in its place -/

namespace Tree

variable {t : Tree}

theorem insertAfter_of_parent_none {anchor id : NodeId} (h : t.parent anchor = none) :
    t.insertAfter anchor id = (false, t) := by
  rw [insertAfter, insertBeside, h]

/-- Putting a node that hangs nowhere beside one that hangs somewhere. -/
theorem WellFormed.insertBeside_of_parent (ht : t.WellFormed) {anchor id p : NodeId}
    (hid : t.parent id = none) (h : t.parent anchor = some p) (offset : Nat) :
    ∃ i, (t.children p)[i]? = some anchor ∧
      t.insertBeside anchor id offset = (true, t.insertChild p (i + offset) id) := by
  obtain ⟨i, hi⟩ : ∃ i, (t.children p).findIdx? (· == anchor) = some i := by
    have hmem := ht.mem_children_iff.mpr h
    rw [← Option.isSome_iff_exists, List.findIdx?_isSome, List.any_eq_true]
    exact ⟨anchor, hmem, by simp⟩
  refine ⟨i, ?_, ?_⟩
  · obtain ⟨hlt, hfound, -⟩ := List.findIdx?_eq_some_iff_getElem.mp hi
    rw [List.getElem?_eq_getElem hlt]
    exact congrArg some (by simpa using hfound)
  · have hposition : t.position? anchor = some i := by
      rw [position?, h]
      exact hi
    rw [insertBeside, h]
    dsimp only
    rw [detach_of_parent_none hid, hposition]

/-- Putting a node that hangs nowhere behind one that hangs somewhere. -/
theorem WellFormed.insertAfter_of_parent (ht : t.WellFormed) {anchor id p : NodeId}
    (hid : t.parent id = none) (h : t.parent anchor = some p) :
    ∃ i, (t.children p)[i]? = some anchor ∧
      t.insertAfter anchor id = (true, t.insertChild p (i + 1) id) :=
  ht.insertBeside_of_parent hid h 1

end Tree

namespace Component

variable {t : Tree} {fw : Framework} {c : Component}

/-- **What generating a builder function does**: it drafts the function, and puts it behind the
class of the component. -/
theorem run_addBuilder (ht : t.WellFormed) {b : Blueprint} (hattached : t.attached c.decl = true)
    (hb : Blueprint.of { tree := t, framework := fw } c = .ok b) :
    ∃ n w, t.Grown [] w ∧ t.size ≤ n.function ∧ w.parent n.function = none ∧ b.Drawn fw w n ∧
      Change.run (c.addBuilder fw) t =
        if (w.insertAfter c.decl n.function).1 then
          (.ok { component := c, function := n.function }, (w.insertAfter c.decl n.function).2)
        else (.error (.detachedNode c.decl), (w.insertAfter c.decl n.function).2) := by
  obtain ⟨n, w, hrun, hgrown, hnew, hfree, hdrawn⟩ := Blueprint.drawn_draft b fw ht
  refine ⟨n, w, hgrown, hnew, hfree, hdrawn, ?_⟩
  have hneed : Change.run (Change.needAttached c.decl) t = (.ok (), t) := by
    rw [Change.run_needAttached, hattached]
    rfl
  have hlift : Change.run (liftExcept (Blueprint.of { tree := t, framework := fw } c)) t =
      (.ok b, t) := by
    rw [Change.run_liftExcept, hb]
  have hinsert : Change.run (liftM (Draft.insertAfter c.decl n.function) : Change Bool) w =
      (.ok (w.insertAfter c.decl n.function).1, (w.insertAfter c.decl n.function).2) := rfl
  unfold addBuilder
  rw [Change.run_bind_ok hneed, Change.run_bind_ok (Change.run_source fw),
    Change.run_bind_ok hlift, Change.run_bind_ok (Change.run_draft hrun),
    Change.run_bind_ok hinsert]
  cases (w.insertAfter c.decl n.function).1 <;> rfl

/-- A class has a name, so there is a blueprint for it. -/
theorem exists_blueprint (fw : Framework) (h : (t.kind c.decl).isClass = true) :
    ∃ b, Blueprint.of { tree := t, framework := fw } c = .ok b := by
  obtain ⟨name, hname⟩ : ∃ name, c.name? t = some name := by
    cases hkind : t.kind c.decl with
    | classDecl name => exact ⟨name, by rw [name?, Tree.name?, hkind]; rfl⟩
    | _ => simp [hkind, Kind.isClass] at h
  have hbuilder : c.builderName? t = some (Text.lowerFirst name) := by
    rw [builderName?, hname]
    rfl
  unfold Blueprint.of
  simp only [hname, hbuilder]
  exact ⟨_, rfl⟩

end Component

end ComponentAudit
