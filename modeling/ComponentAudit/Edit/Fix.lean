import ComponentAudit.Edit.Schemas
import ComponentAudit.Edit.Synchronize

set_option autoImplicit false

/-! # Applying fixes

A fix names its target by number only. When it is applied everything else is looked up in the
tree as it is then, so a fix that was offered before other changes either still applies or is
refused because its target has changed (`EditError.staleTarget`).
-/

namespace ComponentAudit

namespace Change

/-- Refuses a target that is not part of the file. -/
def needTarget (id : NodeId) : Change Unit := do
  unless (← get).attached id do throw (.staleTarget id)

/-- The component that a target is. -/
def needComponent (fw : Framework) (id : NodeId) : Change Component := do
  needTarget id
  let some c := Component.ofClass? (← get) fw id | throw (.staleTarget id)
  return c

/-- The schema of a role that a target is. -/
def needSchema (fw : Framework) (id : NodeId) (role : Role) : Change Schema := do
  needTarget id
  let some i := (Schema.of? (← get) fw id).filter (·.role = role) | throw (.staleTarget id)
  return i

/-- Goes on after a refusal because a builder function constructs nothing. -/
def skippingUnbuilt (c : Change Nat) : Change Unit :=
  tryCatch (c *> pure ()) fun
    | .missingConstructionCall _ | .missingLambdaBody _ => pure ()
    | e => throw e

end Change

/-- The builder functions of the components whose props declare a node, when it is a property
of a schema of props. -/
def Source.buildersUsing (s : Source) (decl : NodeId) : List Builder :=
  match (s.tree.parent decl).bind (Schema.of? s.tree s.framework) with
  | some i =>
    if i.role = .props ∧ (s.tree.kind decl).isProperty then
      ((Component.all s.tree s.framework).filter fun c =>
        (c.schema? s .props).any (·.decl = i.decl)).filterMap (·.builder? s)
    else []
  | none => []

namespace Change

/-- Removes a field from each of some builder functions. -/
def dropFieldFrom (fw : Framework) (f : Field) : List Builder → Change Unit
  | [] => return
  | b :: rest => do
    skippingUnbuilt (b.dropField fw f)
    dropFieldFrom fw f rest

/-- Removes a declaration. A field of props is first removed from the builder functions. -/
def removeDeclaration (fw : Framework) (target : NodeId) : Change Unit := do
  needTarget target
  let s ← source fw
  dropFieldFrom fw (s.tree.fieldAt target) (s.buildersUsing target)
  Draft.detach target

/-- Makes a property mutable. -/
def makeMutable (target : NodeId) : Change Unit := do
  needTarget target
  match (← get).kind target with
  | .property decl => Draft.setKind target (.property { decl with mutable := true })
  | _ => throw (.staleTarget target)

/-- Renames a declaration. -/
def renameDeclaration (target : NodeId) : Option String → Change Unit
  | none => throw (.missingName target)
  | some name => do
    needTarget target
    match ((← get).kind target).renamed? name with
    | some kind => Draft.setKind target kind
    | none => throw (.staleTarget target)

/-- Removes the schema of a role that a target is. -/
def removeSchema (fw : Framework) (target : NodeId) (role : Role) : Change Unit := do
  let i ← needSchema fw target role
  let _ ← i.remove fw

/-- Generates the builder function of the component that a target is anew. -/
def regenerate (fw : Framework) (target : NodeId) : Change Unit := do
  let c ← needComponent fw target
  if let some b := c.builder? (← source fw) then Draft.detach b.function
  let _ ← c.addBuilder fw

/-- Brings the builder function that a target is in line with its props. -/
def synchronize (fw : Framework) (target : NodeId) : Change Unit := do
  needTarget target
  let some b := Builder.ofFunction? (← source fw) target | throw (.staleTarget target)
  let _ ← b.synchronize fw

/-- Makes the constructor of the component that a target is take its props. -/
def takeProps (fw : Framework) (target : NodeId) : Change Unit := do
  let c ← needComponent fw target
  let some props := c.argument? (← get) .props | throw (.staleTarget c.decl)
  c.passProps props

end Change

/-- Applies a fix. -/
def Fix.apply (fw : Framework) : Fix → Change Unit
  | makeMutable property => Change.makeMutable property
  | rename target name => Change.renameDeclaration target name
  | removeDeclaration target => Change.removeDeclaration fw target
  | removeSchema decl role => Change.removeSchema fw decl role
  | regenerate component => Change.regenerate fw component
  | synchronize function => Change.synchronize fw function
  | takeProps component => Change.takeProps fw component

end ComponentAudit
