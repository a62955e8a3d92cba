import ComponentAudit.Diagnostic
import ComponentAudit.Source.Basic

set_option autoImplicit false

/-! # Fields and schemas

The fields of a component are declared in interfaces, one for its props and one for its state.
An interface in such a role is a schema. It is known by its direct supertypes, among which is
the framework's base type for the role.

The fields of a schema are the mutable properties that extend no other type. Props may not use
a name that the framework keeps for itself. Other members are refused with a diagnostic.
-/

namespace ComponentAudit

/-- A field. What makes it that field is its declaration. -/
structure Field where
  decl : NodeId
  name : Option String := none
  type : Option TypeExpr := none
deriving DecidableEq, Inhabited

/-- The field that a node declares. -/
def Tree.fieldAt (t : Tree) (decl : NodeId) : Field :=
  { decl, name := t.name? decl, type := t.declaredType? decl }

/-- The first field of a name. -/
def Field.named? (fields : List Field) (name : String) : Option Field :=
  fields.find? fun f => f.name == some name

/-- An interface that declares the props or the state of components. -/
structure Schema where
  decl : NodeId
  role : Role
deriving DecidableEq, Inhabited

/-- The role of an interface, which its direct supertypes show. An interface that extends both
base types declares props. -/
def Role.of? (t : Tree) (fw : Framework) (decl : NodeId) : Option Role :=
  [Role.props, Role.state].find? fun role =>
    (t.kind decl).interfaceSupertypes.any (·.isClass (role.base fw))

/-- The schema that a node declares. -/
def Schema.of? (t : Tree) (fw : Framework) (decl : NodeId) : Option Schema :=
  (Role.of? t fw decl).map fun role => { decl, role }

/-- What becomes of a member of a schema. -/
inductive Verdict where
  | field (field : Field)
  | refused (diagnostic : Diagnostic)
  /-- Neither a field nor a mistake. -/
  | ignored
deriving DecidableEq

namespace Schema

/-- The diagnostic for a member that is no mutable property of its own. -/
def refuseMember (role : Role) (member : NodeId) (fix : Fix) : Verdict :=
  .refused ((Finding.notMutableProperty role).at member .error [fix])

/-- The diagnostic for a name that the framework keeps for itself. -/
def refuseName (name : String) (member : NodeId) : Verdict :=
  .refused ((Finding.reservedName name).at member .error
    [.rename member none, .removeDeclaration member])

/-- What becomes of a property. -/
def judgeProperty (i : Schema) (s : Source) (member : NodeId) (decl : PropertyDecl) :
    Verdict :=
  if decl.synthesized then .ignored
  else if decl.receiver.isSome then refuseMember i.role member (.removeDeclaration member)
  else if !decl.mutable then refuseMember i.role member (.makeMutable member)
  else match decl.name with
    | some name =>
      if i.role = .props ∧ s.framework.isReserved name then refuseName name member
      else .field (s.tree.fieldAt member)
    | none => .field (s.tree.fieldAt member)

/-- What becomes of a member. -/
def judge (i : Schema) (s : Source) (member : NodeId) : Verdict :=
  match s.tree.kind member with
  | .method _ => refuseMember i.role member (.removeDeclaration member)
  | .property decl => i.judgeProperty s member decl
  | _ => .ignored

/-- A member is ignored or refused, or it is a field, and then its name is not kept from props. -/
theorem judge_cases (i : Schema) (s : Source) (member : NodeId) :
    i.judge s member = .ignored ∨
      i.judge s member = refuseMember i.role member (.removeDeclaration member) ∨
      ∃ decl, s.tree.kind member = .property decl ∧
        (decl.mutable = false ∧
            i.judge s member = refuseMember i.role member (.makeMutable member) ∨
          (∃ name, i.judge s member = refuseName name member) ∨
          (i.role = .props → decl.name.any s.framework.isReserved = false) ∧
            i.judge s member = .field (s.tree.fieldAt member)) := by
  unfold judge
  split
  · exact .inr (.inl rfl)
  · next decl hkind =>
    unfold judgeProperty
    split
    · exact .inl rfl
    · split
      · exact .inr (.inl rfl)
      · refine .inr (.inr ⟨decl, hkind, ?_⟩)
        split
        · next hmutable => exact .inl ⟨by simpa using hmutable, rfl⟩
        · refine .inr ?_
          split
          · next name hname =>
            split
            · exact .inl ⟨name, rfl⟩
            · next hfree => exact .inr ⟨by simpa [hname] using hfree, rfl⟩
          · next hname => exact .inr ⟨by simp [hname], rfl⟩
  · exact .inl rfl

/-- The members with what becomes of them, in the order of declaration. -/
def verdicts (i : Schema) (s : Source) : List Verdict :=
  (s.tree.members i.decl).map (i.judge s)

/-- The fields, in the order of declaration. -/
def fields (i : Schema) (s : Source) : List Field :=
  (i.verdicts s).filterMap fun
    | .field f => some f
    | _ => none

/-- The diagnostics for members that are no fields, in the order of declaration. -/
def refusals (i : Schema) (s : Source) : List Diagnostic :=
  (i.verdicts s).filterMap fun
    | .refused d => some d
    | _ => none

end Schema

/-- The schema behind the props or the state type of a component. -/
def Component.schema? (c : Component) (s : Source) (role : Role) : Option Schema := do
  let type ← c.argument? s.tree role
  let decl ← s.tree.declaration? type.simpleName Kind.isInterface
  (Schema.of? s.tree s.framework decl).filter (·.role = role)

end ComponentAudit
