import ComponentAudit.Edit.Schemas

set_option autoImplicit false

/-! # Completing a class to a component

While the supertype of a class is being typed a host can offer to make the class a component.
Accepting the offer writes the base class, a `render` function, a props interface and a builder
function. Either all of that is written or the tree stays as it was.
-/

namespace ComponentAudit

/-- An offer to make a class a component. -/
structure Completion where
  decl : NodeId
  /-- What the host shows. -/
  lookup : String
deriving DecidableEq

/-- What an accepted offer has made. -/
structure Completed where
  component : Component
  propsInterface : NodeId
  renderFunction : NodeId
  /-- The builder function, unless the class had one already. -/
  builderFunction : Option NodeId
deriving DecidableEq

/-- The offer for a class. -/
def completion? (t : Tree) (fw : Framework) (id : NodeId) : Option Completion :=
  match t.kind id with
  | .classDecl name =>
    some { decl := id, lookup := fw.componentBase ++ "<" ++ name ++ "Props, " ++ fw.stateBase ++
      ">(props) \x7b ... \x7d" }
  | _ => none

/-- Writes the base class: in the place of the first supertype, or before the members. -/
def draftBase (fw : Framework) (decl : NodeId) : Draft Unit := do
  let base := TypeExpr.generic fw.componentBase [.simple fw.propsBase, .simple fw.stateBase]
  let entry ← Draft.supertype base (some [])
  let t ← get
  match (t.supertypes decl).head? with
  | some typed => let _ ← Draft.replace typed entry
  | none => Draft.insertChild decl (if (t.parameterList? decl).isSome then 1 else 0) entry

/-- Writes a `render` function as the last member. -/
def draftRender (fw : Framework) (decl : NodeId) : Draft NodeId := do
  let todo ← Draft.call "TODO" [] none
  let body ← Draft.block [todo]
  let render ← Draft.function
    { name := some fw.renderFunction, receiver := some (.simple fw.builderReceiver),
      overrides := true }
    [] body
  Draft.adopt decl [render]
  return render

/-- Makes a class a component. -/
def makeComponent (fw : Framework) (decl : NodeId) : Change Completed := do
  let t ← get
  unless (t.kind decl).isClass && t.attached decl do throw (.staleTarget decl)
  draftBase fw decl
  let renderFunction ← draftRender fw decl
  let some component := Component.ofClass? (← get) fw decl | throw (.staleTarget decl)
  let propsInterface ← component.createSchema fw .props
  if (component.builder? (← Change.source fw)).isSome then
    return { component, propsInterface, renderFunction, builderFunction := none }
  else
    let builder ← component.addBuilder fw
    return { component, propsInterface, renderFunction, builderFunction := some builder.function }

/-- Makes a change whole: when it is refused the tree stays as it was. -/
def Change.atomically {α : Type} (c : Change α) : Change α := do
  let before ← get
  tryCatch c fun e => do
    set before
    throw e

/-- Accepts an offer. -/
def Completion.accept (fw : Framework) (c : Completion) : Change Completed :=
  (makeComponent fw c.decl).atomically

end ComponentAudit
