import ComponentAudit.Proofs.Source.Members
import ComponentAudit.Proofs.Source.Scopes

set_option autoImplicit false

/-! # Names behind points

In `a.b` the name `b` is looked up in the type of `a`, and the type of `a.b` is that of the
declaration found. So the two questions, what a name means and what type an expression has, lead to
each other: from a name up to the selection that it ends, across to the receiver, and down again.
Nothing bounds the depth of these calls (`Source.findReferent`, `Source.findType`); they are a least
fixed point with an answer only where they end. In a well-formed tree they always do, since every
call goes to a node of a higher rank.

Along an expression `a.b.c` the types are found from left to right, each from the one before it.

Main statement: `Source.resolution_folds`.
-/

namespace ComponentAudit.Source

/-! ## Two questions that lead to each other -/

mutual

/-- The declaration that a name means, found through the type of its receiver if it has one. -/
def findReferent (s : Source) (id : NodeId) : Option (Option NodeId) :=
  match s.qualifier? id with
  | some receiver => do
    let owner ← s |>.findType receiver
    return owner.bind fun type => (s.tree.referenceName? id).bind (s.member? type)
  | none => return (s.tree.referenceName? id).bind fun name => (s.binding id name).declaration?
partial_fixpoint

/-- The type of an expression, found through what its last name means. -/
def findType (s : Source) (id : NodeId) : Option (Option TypeExpr) :=
  match s.tree.kind id with
  | .reference name =>
    match s.qualifier? id with
    | some _ => do
      let decl ← s |>.findReferent id
      return decl.bind s.tree.declaredType?
    | none => return s.bindingType? (s.binding id name)
  | .select =>
    match s.tree.operands? id with
    | some (_, selector) => s |>.findType selector
    | none => return none
  | .literal text => return literalType? text
  | .classRef name => return some (.generic "KClass" [.simple name])
  | _ => return none
partial_fixpoint

end

/-- The declaration that a name or a class used as a value means. -/
def findDeclaration (s : Source) (id : NodeId) : Option (Option NodeId) :=
  match s.tree.kind id with
  | .reference _ => s.findReferent id
  | .classRef _ => return s.classOf? id
  | _ => return none

variable {s : Source} {id receiver selector : NodeId} {name : String}

theorem findReferent_eq (h : ∀ receiver, s.qualifier? id = some receiver →
    s.findType receiver = some (s.typeOf? receiver)) :
    s.findReferent id = some (s.referent? id) := by
  rw [findReferent, referent?]
  cases hq : s.qualifier? id with
  | none => cases s.tree.referenceName? id <;> rfl
  | some receiver =>
      simp only [h receiver hq]
      cases s.typeOf? receiver <;> cases s.tree.referenceName? id <;> rfl

/-- What a name behind a point means is looked up in the type of its receiver. -/
theorem resolve?_of_qualifier? (hk : s.tree.kind id = .reference name)
    (hq : s.qualifier? id = some receiver) :
    s.resolve? id = (s.typeOf? receiver).bind (s.member? · name) := by
  simp only [resolve?, hk, referent?, Tree.referenceName?, Kind.referenceName?, hq]
  rfl

section

variable (ht : s.tree.WellFormed)

include ht

theorem typeOf?_eq_within (id : NodeId) : s.typeOf? id = s.typeWithin? (s.tree.size + 1) id :=
  (typeWithin?_eq_of_le ht (Nat.le_succ _) id).symm

/-- The type of a selection is the type of what is selected. -/
theorem typeOf?_of_select (hk : s.tree.kind id = .select)
    (ho : s.tree.operands? id = some (receiver, selector)) : s.typeOf? id = s.typeOf? selector := by
  rw [typeOf?_eq_within ht id, typeWithin?, hk]
  simp only [ho]
  rfl

/-- The type of a name behind a point is the declared type of what it means. -/
theorem typeOf?_of_qualifier? (hk : s.tree.kind id = .reference name)
    (hq : s.qualifier? id = some receiver) :
    s.typeOf? id = (s.resolve? id).bind s.tree.declaredType? := by
  rw [resolve?_of_qualifier? hk hq, typeOf?_eq_within ht id, typeWithin?, hk, hq, Option.bind_assoc]
  rfl

/-- Ranks cannot grow for ever. -/
theorem rank_le (hid : id < s.tree.size) : s.rank id ≤ 2 * s.tree.size + 1 := by
  have hdepth := ht.depth_le_size hid
  unfold rank
  split <;> omega

/-- **The inquiry for a type ends.** -/
theorem findType_eq (id : NodeId) : s.findType id = some (s.typeOf? id) := by
  induction hn : 2 * s.tree.size + 2 - s.rank id using Nat.strong_induction_on generalizing id with
  | h n ih =>
    -- a node that is asked has a higher rank
    have hasks {y : NodeId} (hy : s.asks? id = some y) : s.findType y = some (s.typeOf? y) := by
      obtain ⟨hsize, hlt⟩ := rank_lt_of_asks? ht hy
      have hle := rank_le ht hsize
      exact ih _ (by omega) y rfl
    rw [findType]
    cases hk : s.tree.kind id with
    | reference name =>
        cases hq : s.qualifier? id with
        | none =>
            rw [typeOf?_eq_within ht id, typeWithin?, hk, hq]
            rfl
        | some receiver =>
            have hreferent : s.findReferent id = some (s.resolve? id) := by
              rw [resolve?, hk]
              exact findReferent_eq fun r hr => hasks (by rw [asks?, hk, hr])
            rw [typeOf?_of_qualifier? ht hk hq]
            simp only [hreferent]
            rfl
    | select =>
        cases ho : s.tree.operands? id with
        | none =>
            rw [typeOf?_eq_within ht id, typeWithin?, hk, ho]
            rfl
        | some o =>
            rw [typeOf?_of_select ht hk ho]
            exact hasks (by rw [asks?, hk, ho, Option.map_some])
    | _ =>
        rw [typeOf?_eq_within ht id, typeWithin?, hk]
        rfl

/-- **The inquiry for a meaning ends.** -/
theorem findDeclaration_eq (id : NodeId) : s.findDeclaration id = some (s.resolve? id) := by
  rw [findDeclaration, resolve?]
  cases s.tree.kind id with
  | reference name => exact findReferent_eq fun r _ => findType_eq ht r
  | _ => rfl

end

/-! ## Expressions of names -/

/-- The expression `n 0 . n 1 . … . n k` of names, nested to the left: `whole j` is the part of it
that ends in `n j`. -/
structure Dotted (s : Source) (k : Nat) (n : Nat → NodeId) (name : Nat → String)
    (whole : Nat → NodeId) : Prop where
  reference : ∀ j ≤ k, s.tree.kind (n j) = .reference (name j)
  first : whole 0 = n 0
  select : ∀ j < k, s.tree.kind (whole (j + 1)) = .select ∧
    s.tree.operands? (whole (j + 1)) = some (whole j, n (j + 1))

/-- The types along an expression of names, from left to right: the type of the first name, and
then the declared type of what the next name means as a member of the type before it. -/
def typeAlong (s : Source) (first : Option TypeExpr) (name : Nat → String) :
    Nat → Option TypeExpr
  | 0 => first
  | j + 1 =>
    ((s.typeAlong first name j).bind (s.member? · (name (j + 1)))).bind s.tree.declaredType?

theorem typeAlong_eq_none_of_le {first : Option TypeExpr} {name : Nat → String} {i j : Nat}
    (h : s.typeAlong first name j = none) (hij : j ≤ i) : s.typeAlong first name i = none := by
  induction i, hij using Nat.le_induction with
  | base => exact h
  | succ i _ ih => rw [typeAlong, ih, Option.bind_none, Option.bind_none]

namespace Dotted

variable {k : Nat} {n : Nat → NodeId} {name : Nat → String} {whole : Nat → NodeId}
  (h : s.Dotted k n name whole) (ht : s.tree.WellFormed)

include h ht

/-- A name behind a point has the part before it as its receiver. -/
theorem qualifier?_eq {j : Nat} (hj : j < k) : s.qualifier? (n (j + 1)) = some (whole j) := by
  obtain ⟨hk, ho⟩ := h.select j hj
  have hparent := ht.mem_children_iff.mp (Tree.mem_children_of_operands? ho).2
  exact qualifier?_eq_some_iff.mpr ⟨_, hparent, hk, Tree.children_of_operands? ho⟩

theorem typeOf?_whole {j : Nat} (hj : j ≤ k) :
    s.typeOf? (whole j) = s.typeAlong (s.typeOf? (n 0)) name j := by
  induction j with
  | zero => rw [h.first, typeAlong]
  | succ j ih =>
      obtain ⟨hk, ho⟩ := h.select j hj
      have href := h.reference (j + 1) hj
      have hq := h.qualifier?_eq ht hj
      calc s.typeOf? (whole (j + 1))
          = s.typeOf? (n (j + 1)) := typeOf?_of_select ht hk ho
        _ = (s.resolve? (n (j + 1))).bind s.tree.declaredType? := typeOf?_of_qualifier? ht href hq
        _ = ((s.typeOf? (whole j)).bind (s.member? · (name (j + 1)))).bind
              s.tree.declaredType? := by
            rw [resolve?_of_qualifier? href hq]
        _ = s.typeAlong (s.typeOf? (n 0)) name (j + 1) := by rw [ih (Nat.le_of_lt hj), typeAlong]

theorem resolve?_eq {j : Nat} (hj : j < k) : s.resolve? (n (j + 1)) =
    (s.typeAlong (s.typeOf? (n 0)) name j).bind (s.member? · (name (j + 1))) := by
  rw [resolve?_of_qualifier? (h.reference (j + 1) hj) (h.qualifier?_eq ht hj),
    h.typeOf?_whole ht (Nat.le_of_lt hj)]

end Dotted

/-- **Names behind points are resolved from left to right, and resolution ends.** In a well-formed
tree the walks up, the look-ups of members and the questions for types and meanings all end. In an
expression `n 0 . n 1 . … . n k` of names, every name but the first means the member of its name in
the type of the part before it. The type of a part is the declared type of what its last name means,
and when a type or a meaning is missing, all that come later are missing. -/
theorem resolution_folds (ht : s.tree.WellFormed) :
    ((∀ id, s.findType id = some (s.typeOf? id) ∧ s.findDeclaration id = some (s.resolve? id)) ∧
      (∀ id, s.tree.climb (s.tree.parent id) = some (s.tree.ancestors id)) ∧
      ∀ type name, ∃ seen, (s.lookUp name).run [] [type] = some (seen, s.member? type name)) ∧
    ∀ (k : Nat) (n : Nat → NodeId) (name : Nat → String) (whole : Nat → NodeId),
      s.Dotted k n name whole →
      let type := s.typeAlong (s.typeOf? (n 0)) name
      (∀ j ≤ k, s.typeOf? (whole j) = type j) ∧
      (∀ j < k, s.resolve? (n (j + 1)) = (type j).bind (s.member? · (name (j + 1))) ∧
        type (j + 1) = (s.resolve? (n (j + 1))).bind s.tree.declaredType?) ∧
      ∀ j i, j < i → i ≤ k → type j = none ∨ 0 < j ∧ s.resolve? (n j) = none →
        s.resolve? (n i) = none ∧ type i = none := by
  refine ⟨⟨fun id => ⟨findType_eq ht id, findDeclaration_eq ht id⟩, ht.climb_eq,
    fun type name => ?_⟩, fun k n name whole h => ?_⟩
  · obtain ⟨seen, hrun, -⟩ := s.exists_outcome_lookUp type name
    exact ⟨seen, hrun⟩
  intro type
  have hstep (j : Nat) (hj : j < k) :
      type (j + 1) = (s.resolve? (n (j + 1))).bind s.tree.declaredType? := by
    rw [h.resolve?_eq ht hj]
    rfl
  refine ⟨fun j hj => h.typeOf?_whole ht hj, fun j hj => ⟨h.resolve?_eq ht hj, hstep j hj⟩, ?_⟩
  intro j i hji hik hmissing
  -- a name without a meaning leaves its part without a type
  have hnone : type j = none := by
    rcases hmissing with hnone | ⟨hpos, hresolve⟩
    · exact hnone
    · obtain ⟨l, rfl⟩ : ∃ l, j = l + 1 := ⟨j - 1, by omega⟩
      rw [hstep l (by omega), hresolve, Option.bind_none]
  obtain ⟨l, rfl⟩ : ∃ l, i = l + 1 := ⟨i - 1, by omega⟩
  have hbefore : type l = none := typeAlong_eq_none_of_le hnone (by omega)
  refine ⟨?_, typeAlong_eq_none_of_le hnone (by omega)⟩
  rw [h.resolve?_eq ht (by omega)]
  exact congrArg (Option.bind · _) hbefore

/-- A function with the expressions `a.b.c`, `a.x.c` and `a.(b.c)`. Only the first one has a type at
every point. -/
def points : Source where
  tree :=
    { nodes := #[{ kind := .file "F", children := [1, 4, 7] },
        { kind := .interface "A" [], parent := some 0, children := [2] },
        { kind := .property { name := some "b", mutable := true }, parent := some 1,
          children := [3] },
        { kind := .typeRef (.simple "B"), parent := some 2 },
        { kind := .interface "B" [], parent := some 0, children := [5] },
        { kind := .property { name := some "c", mutable := true }, parent := some 4,
          children := [6] },
        { kind := .typeRef (.simple "Int"), parent := some 5 },
        { kind := .function { name := some "f" }, parent := some 0, children := [8, 11] },
        { kind := .parameterList, parent := some 7, children := [9] },
        { kind := .parameter "a" none, parent := some 8, children := [10] },
        { kind := .typeRef (.simple "A"), parent := some 9 },
        { kind := .block, parent := some 7, children := [12, 17, 22] },
        { kind := .select, parent := some 11, children := [13, 16] },
        { kind := .select, parent := some 12, children := [14, 15] },
        { kind := .reference "a", parent := some 13 },
        { kind := .reference "b", parent := some 13 },
        { kind := .reference "c", parent := some 12 },
        { kind := .select, parent := some 11, children := [18, 21] },
        { kind := .select, parent := some 17, children := [19, 20] },
        { kind := .reference "a", parent := some 18 },
        { kind := .reference "x", parent := some 18 },
        { kind := .reference "c", parent := some 17 },
        { kind := .select, parent := some 11, children := [23, 24] },
        { kind := .reference "a", parent := some 22 },
        { kind := .select, parent := some 22, children := [25, 26] },
        { kind := .reference "b", parent := some 24 },
        { kind := .reference "c", parent := some 24 }]
      root := 0 }
  framework := {}

theorem resolution_folds_points :
    points.tree.WellFormed ∧ points.findType 12 = some (some (.simple "Int")) ∧
      points.findType 22 = some none ∧
      points.resolve? 16 = (some (.simple "B")).bind (points.member? · "c") ∧
      points.resolve? 16 = some 5 ∧ points.resolve? 20 = none ∧ points.resolve? 21 = none := by
  have ht : points.tree.WellFormed := by decide +kernel
  have hvalues : points.typeOf? 12 = some (.simple "Int") ∧ points.typeOf? 22 = none ∧
      points.typeOf? 13 = some (.simple "B") ∧ points.resolve? 16 = some 5 ∧
      points.resolve? 20 = none := by decide +kernel
  obtain ⟨hint, hright, hB, hc, hx⟩ := hvalues
  have hgood : points.Dotted 2 ([14, 15, 16].getD · 0) (["a", "b", "c"].getD · "")
      ([14, 13, 12].getD · 0) := ⟨by decide +kernel, rfl, by decide +kernel⟩
  have hbad : points.Dotted 2 ([19, 20, 21].getD · 0) (["a", "x", "c"].getD · "")
      ([19, 18, 17].getD · 0) := ⟨by decide +kernel, rfl, by decide +kernel⟩
  obtain ⟨⟨hfind, -, -⟩, hfold⟩ := resolution_folds ht
  obtain ⟨htypes, hsteps, -⟩ := hfold 2 _ _ _ hgood
  obtain ⟨-, -, hmissing⟩ := hfold 2 _ _ _ hbad
  have hmember := (hsteps 1 (by decide)).1
  rw [← htypes 1 (by decide)] at hmember
  refine ⟨ht, hint ▸ (hfind 12).1, hright ▸ (hfind 22).1, hB ▸ hmember, hc, hx, ?_⟩
  exact (hmissing 1 2 (by decide) (by decide) (.inr ⟨by decide, hx⟩)).1

end ComponentAudit.Source
