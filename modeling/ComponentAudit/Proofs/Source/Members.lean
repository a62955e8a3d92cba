import ComponentAudit.Source.Basic
import ComponentAudit.Proofs.Exploration

set_option autoImplicit false

/-! # Members through supertypes

A member of a type is looked up in the interface or class that the type names, and then in the
supertypes of interfaces. Nothing keeps interfaces from extending each other in circles, from
extending types that are not declared, or from having the same name as another declaration.

The look-up is an exploration of types whose nodes are declarations (`Source.lookUp`): several types
can name the same declaration, and it is searched once. `Source.member?` walks in the same way with
a bound on its steps, which is never met.

Main statement: `Source.member?_through_supertypes`.
-/

namespace ComponentAudit.Source

/-! ## What a type reaches -/

/-- Whether a declaration can be meant by a type: an interface or class with its simple name. -/
def Fits (s : Source) (type : TypeExpr) (d : NodeId) : Prop :=
  s.tree.name? d = some type.simpleName ∧
    ((s.tree.kind d).isInterface = true ∨ (s.tree.kind d).isClass = true)

/-- Whether a type names a declaration: the first one of the file that fits. -/
def Denotes (s : Source) (type : TypeExpr) (d : NodeId) : Prop :=
  ∃ before after, s.tree.declarations = before ++ d :: after ∧ s.Fits type d ∧
    ∀ b ∈ before, ¬ s.Fits type b

/-- Whether a property is declared, under a name, by an interface or class itself. -/
def Declares (s : Source) (d : NodeId) (name : String) (m : NodeId) : Prop :=
  m ∈ s.tree.members d ∧ (s.tree.kind m).isProperty = true ∧ s.tree.name? m = some name

/-- Whether a type names an interface that extends another type. Classes extend nothing here. -/
def Extends (s : Source) (type super : TypeExpr) : Prop :=
  ∃ d own supers, s.Denotes type d ∧ s.tree.kind d = .interface own supers ∧ super ∈ supers

/-- Whether a type has a property of a name, declared where its supertypes lead to. -/
def HasMember (s : Source) (owner : TypeExpr) (name : String) (m : NodeId) : Prop :=
  ∃ type d, Relation.ReflTransGen s.Extends owner type ∧ s.Denotes type d ∧ s.Declares d name m

variable {s : Source} {type owner : TypeExpr} {name : String} {d m : NodeId}

theorem fits_iff : (s.tree.name? d == some type.simpleName &&
    ((s.tree.kind d).isInterface || (s.tree.kind d).isClass)) = true ↔ s.Fits type d := by
  simp [Fits]

theorem typeDeclaration?_eq_some_iff : s.typeDeclaration? type = some d ↔ s.Denotes type d := by
  unfold typeDeclaration? Tree.declaration?
  rw [List.find?_eq_some_iff_append]
  constructor
  · rintro ⟨hd, before, after, hsplit, hbefore⟩
    refine ⟨before, after, hsplit, fits_iff.mp hd, fun b hb hfits => ?_⟩
    have hnot := hbefore b hb
    rw [fits_iff.mpr hfits] at hnot
    cases hnot
  · rintro ⟨before, after, hsplit, hd, hbefore⟩
    refine ⟨fits_iff.mpr hd, before, after, hsplit, fun b hb => ?_⟩
    rw [Bool.not_eq_true', Bool.eq_false_iff]
    exact fun hb' => hbefore b hb (fits_iff.mp hb')

theorem declares_of_ownMember? (h : s.ownMember? d name = some m) : s.Declares d name m := by
  have hfound := List.find?_some h
  simp only [Bool.and_eq_true, beq_iff_eq] at hfound
  exact ⟨List.mem_of_find?_eq_some h, hfound.1, hfound.2⟩

theorem ownMember?_eq_none_iff : s.ownMember? d name = none ↔ ∀ m, ¬ s.Declares d name m := by
  unfold ownMember? Declares
  rw [List.find?_eq_none]
  simp only [Bool.and_eq_true, beq_iff_eq, not_and]

/-! ## The look-up as an exploration -/

/-- The look-up of a name: types stand for declarations, and the supertypes of an interface are
looked at from the last one on. -/
def lookUp (s : Source) (name : String) : Exploration TypeExpr NodeId NodeId where
  node := s.typeDeclaration?
  hit d := s.ownMember? d name
  next d := (s.tree.kind d).interfaceSupertypes.reverse

theorem leads_lookUp : (s.lookUp name).Leads = s.Extends := by
  funext type super
  have hnext (d : NodeId) : super ∈ (s.tree.kind d).interfaceSupertypes.reverse ↔
      ∃ own supers, s.tree.kind d = .interface own supers ∧ super ∈ supers := by
    cases s.tree.kind d <;> simp [Kind.interfaceSupertypes]
  simp only [Exploration.Leads, Extends, lookUp, typeDeclaration?_eq_some_iff, hnext, eq_iff_iff]
  constructor
  · rintro ⟨d, hd, own, supers, hk, hmem⟩
    exact ⟨d, own, supers, hd, hk, hmem⟩
  · rintro ⟨d, own, supers, hd, hk, hmem⟩
    exact ⟨d, hd, own, supers, hk, hmem⟩

theorem node_lookUp_eq_some_iff : (s.lookUp name).node type = some d ↔ s.Denotes type d :=
  typeDeclaration?_eq_some_iff

theorem reaches_lookUp_iff : (s.lookUp name).Reaches [owner] d ↔
    ∃ type, Relation.ReflTransGen s.Extends owner type ∧ s.Denotes type d := by
  simp only [Exploration.Reaches, leads_lookUp, List.mem_singleton, exists_eq_left,
    node_lookUp_eq_some_iff]

theorem mem_declarations_of_typeDeclaration? (h : s.typeDeclaration? type = some d) :
    d ∈ s.tree.declarations :=
  List.mem_of_find?_eq_some h

/-- A look-up with a bound that exceeds what is left to do gives the answer of the one without a
bound. -/
theorem exists_run_lookUp {n : Nat} {seen : List NodeId} {pending : List TypeExpr}
    (hn : (s.lookUp name).load s.tree.declarations seen + pending.length < n) :
    ∃ seen', (s.lookUp name).run seen pending =
      some (seen', s.searchMember? name n seen pending) := by
  induction n generalizing seen pending with
  | zero => exact absurd hn (Nat.not_lt_zero _)
  | succ n ih =>
      cases pending with
      | nil => exact ⟨seen, Exploration.run_nil⟩
      | cons type rest =>
          rw [List.length_cons] at hn
          rw [searchMember?]
          cases hd : s.typeDeclaration? type with
          | none =>
              have hsettled : (s.lookUp name).Settled seen type := fun d h => by
                cases hd.symm.trans h
              rw [Exploration.run_of_settled hsettled]
              exact ih (by omega)
          | some d =>
              by_cases hseen : d ∈ seen
              · have hsettled : (s.lookUp name).Settled seen type := fun d' h => by
                  obtain rfl : d = d' := Option.some.inj (hd.symm.trans h)
                  exact hseen
                rw [Exploration.run_of_settled hsettled]
                simp only [List.contains_eq_mem, hseen, decide_true, if_true]
                exact ih (by omega)
              · simp only [List.contains_eq_mem, hseen, decide_false, Bool.false_eq_true, if_false]
                cases hm : s.ownMember? d name with
                | some m => exact ⟨d :: seen, Exploration.run_of_hit hd hseen hm⟩
                | none =>
                    have hload := (s.lookUp name).load_visit_le
                      (mem_declarations_of_typeDeclaration? hd) hseen
                    rw [Exploration.run_of_miss hd hseen hm]
                    refine ih ?_
                    rw [List.length_append]
                    exact Nat.lt_of_lt_of_le (by omega) (Nat.le_of_lt_succ hn)

/-- **The look-up ends**, and its answer is that of `member?`. -/
theorem exists_outcome_lookUp (s : Source) (owner : TypeExpr) (name : String) :
    ∃ seen, (s.lookUp name).run [] [owner] = some (seen, s.member? owner name) ∧
      (s.lookUp name).Outcome [owner] seen (s.member? owner name) := by
  have hload : (s.lookUp name).load s.tree.declarations [] + 1 < s.searchBound := by
    simp [Exploration.load, searchBound, lookUp]
  have hall (d : NodeId) (hd : (s.lookUp name).Reaches [owner] d) : d ∈ s.tree.declarations := by
    obtain ⟨-, -, type, -, htype⟩ := hd
    exact mem_declarations_of_typeDeclaration? htype
  obtain ⟨seen, hrun⟩ : ∃ seen, (s.lookUp name).run [] [owner] =
      some (seen, s.member? owner name) := exists_run_lookUp hload
  obtain ⟨seen', r, hrun', houtcome⟩ := Exploration.exists_run hall
  obtain ⟨rfl, rfl⟩ := Prod.mk.inj (Option.some.inj (hrun.symm.trans hrun'))
  exact ⟨seen, hrun, houtcome⟩

/-! ## What is found -/

/-- A property that the declaration of the type has itself comes first. -/
theorem member?_of_ownMember? (hd : s.typeDeclaration? owner = some d)
    (hm : s.ownMember? d name = some m) : s.member? owner name = some m := by
  simp only [member?, searchBound, searchMember?, hd, hm, List.contains_nil, Bool.false_eq_true,
    if_false]

theorem hasMember_of_member? (h : s.member? owner name = some m) : s.HasMember owner name m := by
  obtain ⟨seen, -, houtcome⟩ := s.exists_outcome_lookUp owner name
  rw [h] at houtcome
  cases houtcome with
  | found hd hm =>
      obtain ⟨type, htype, hdenotes⟩ := reaches_lookUp_iff.mp hd
      exact ⟨type, _, htype, hdenotes, declares_of_ownMember? hm⟩

theorem exists_declares_of_member? (h : s.member? owner name = some m) :
    ∃ d, s.Declares d name m := by
  obtain ⟨-, d, -, -, hm⟩ := hasMember_of_member? h
  exact ⟨d, hm⟩

theorem not_hasMember_of_member? (h : s.member? owner name = none) (m : NodeId) :
    ¬ s.HasMember owner name m := by
  obtain ⟨seen, -, houtcome⟩ := s.exists_outcome_lookUp owner name
  rw [h] at houtcome
  rintro ⟨type, d, htype, hdenotes, hm⟩
  cases houtcome with
  | exhausted _ hmiss =>
      have hown := hmiss d (reaches_lookUp_iff.mpr ⟨type, htype, hdenotes⟩)
      exact ownMember?_eq_none_iff.mp hown m hm

/-- **Members are found through every graph of supertypes.** The look-up of a name in a type ends,
whatever interfaces extend each other. It finds a property that the declaration of the type itself
has, if there is one. It finds something if and only if some declaration that the supertypes of
interfaces lead to has a property of the name, and what it finds is such a property. -/
theorem member?_through_supertypes (s : Source) (owner : TypeExpr) (name : String) :
    (∃ seen, (s.lookUp name).run [] [owner] = some (seen, s.member? owner name)) ∧
      (∀ d, s.Denotes owner d → (∃ m, s.Declares d name m) →
        ∃ m, s.member? owner name = some m ∧ s.Declares d name m) ∧
      ((s.member? owner name).isSome = true ↔ ∃ m, s.HasMember owner name m) ∧
      ∀ m, s.member? owner name = some m → s.HasMember owner name m := by
  obtain ⟨seen, hrun, -⟩ := s.exists_outcome_lookUp owner name
  refine ⟨⟨seen, hrun⟩, ?_, ?_, fun m => hasMember_of_member?⟩
  · rintro d hd ⟨m, hm⟩
    cases hown : s.ownMember? d name with
    | none => exact absurd hm (ownMember?_eq_none_iff.mp hown m)
    | some m' =>
        have hfound := member?_of_ownMember? (typeDeclaration?_eq_some_iff.mpr hd) hown
        exact ⟨m', hfound, declares_of_ownMember? hown⟩
  · constructor
    · intro h
      obtain ⟨m, hm⟩ := Option.isSome_iff_exists.mp h
      exact ⟨m, hasMember_of_member? hm⟩
    · rintro ⟨m, hm⟩
      rw [← Option.ne_none_iff_isSome]
      exact fun hnone => not_hasMember_of_member? hnone m hm

/-- Two interfaces that extend each other, a type that nothing declares, a second declaration with
the name of the first one, and a class at the end of the way. -/
def circle : Source where
  tree :=
    { nodes := #[{ kind := .file "F", children := [1, 2, 3, 4] },
        { kind := .interface "A" [.simple "Missing", .simple "B"], parent := some 0 },
        { kind := .interface "B" [.simple "A", .simple "pkg.C"], parent := some 0,
          children := [5] },
        { kind := .interface "B" [], parent := some 0, children := [6] },
        { kind := .classDecl "C", parent := some 0, children := [7, 8] },
        { kind := .property { name := some "x", mutable := true }, parent := some 2 },
        { kind := .property { name := some "y", mutable := true }, parent := some 3 },
        { kind := .property { name := some "x", mutable := true }, parent := some 4 },
        { kind := .property { name := some "z", mutable := true }, parent := some 4 }]
      root := 0 }
  framework := {}

/-- A property of the class is found behind the circle, one of the second declaration is not. -/
theorem member?_through_supertypes_circle :
    circle.member? (.simple "A") "z" = some 8 ∧ circle.HasMember (.simple "A") "z" 8 ∧
      circle.member? (.simple "A") "y" = none ∧ (∀ m, ¬ circle.HasMember (.simple "A") "y" m) ∧
      (∃ m, circle.member? (.simple "B") "x" = some m ∧ circle.Declares 2 "x" m) ∧
      ∃ seen, (circle.lookUp "y").run [] [.simple "A"] = some (seen, none) := by
  have hfound : circle.member? (.simple "A") "z" = some 8 ∧
      circle.member? (.simple "A") "y" = none ∧ circle.typeDeclaration? (.simple "B") = some 2 ∧
      circle.ownMember? 2 "x" = some 5 := by decide +kernel
  obtain ⟨hz, hy, hB, hx⟩ := hfound
  obtain ⟨-, -, -, hmember⟩ := member?_through_supertypes circle (.simple "A") "z"
  obtain ⟨hends, -, hiff, -⟩ := member?_through_supertypes circle (.simple "A") "y"
  obtain ⟨-, hown, -, -⟩ := member?_through_supertypes circle (.simple "B") "x"
  refine ⟨hz, hmember 8 hz, hy, ?_, ?_, by rwa [hy] at hends⟩
  · intro m hm
    have hsome := hiff.mpr ⟨m, hm⟩
    rw [hy] at hsome
    cases hsome
  · exact hown 2 (typeDeclaration?_eq_some_iff.mp hB) ⟨5, declares_of_ownMember? hx⟩

end ComponentAudit.Source
