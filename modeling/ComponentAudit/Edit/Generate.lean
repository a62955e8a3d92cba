import ComponentAudit.Construction
import ComponentAudit.Edit.Plan

set_option autoImplicit false

/-! # Generating builder functions

A builder function made from scratch has one parameter for each field of the props and one for
the children:

    fun RBuilder.foo(x: Int, body: RHandler<FooProps> = {}) = child(Foo::class) {
        attrs.x = x
        body()
    }

The children parameter takes the first free name among `body`, `body1`, … `body9`.
-/

namespace ComponentAudit

/-- Whether one of the fields has a name. -/
def Field.taken (fields : List Field) (name : String) : Bool := fields.any (·.name == some name)

/-- The first name that no field has among a base name and the base name with a number from
`index` on, and the last one, with nine, when all are taken. -/
def bodyNameFrom (base : String) (fields : List Field) : Nat → Nat → String → String
  | 0, _, name => name
  | tries + 1, index, name =>
    if Field.taken fields name then
      bodyNameFrom base fields tries (index + 1) (base ++ toString index)
    else name

/-- The name of the children parameter beside parameters for the given fields. -/
def bodyName (base : String) (fields : List Field) : String := bodyNameFrom base fields 9 1 base

/-- What a builder function is made from. -/
structure Blueprint where
  functionName : String
  componentName : String
  fields : List Field
  propsType : TypeExpr
  /-- The name of the children parameter. -/
  bodyParameter : String
deriving DecidableEq

namespace Blueprint

/-- The blueprint of a component's builder function. Fields without a name are left out. -/
def of (s : Source) (c : Component) : Except EditError Blueprint := do
  match c.name? s.tree, c.builderName? s.tree with
  | some componentName, some functionName =>
    let declared := match c.schema? s .props with
      | some schema => schema.fields s
      | none => []
    let fields := declared.filter (·.name.isSome)
    return {
      functionName, componentName, fields
      propsType := (c.argument? s.tree .props).getD (.simple s.framework.propsBase)
      bodyParameter := bodyName s.framework.bodyParameter fields }
  | _, _ => throw (.notAComponent c.decl)

/-- Drafts a parameter and an assignment for each field. -/
def draftFields (attrs : String) : List Field → Draft (List NodeId × List NodeId)
  | [] => return ([], [])
  | f :: fs =>
    match f.name with
    | none => draftFields attrs fs
    | some name => do
      let parameter ← Draft.parameter name f.type none
      let statement ← Draft.assignMember attrs name name
      let newline ← Draft.newline
      let (parameters, statements) ← draftFields attrs fs
      return (parameter :: parameters, statement :: newline :: statements)

/-- Drafts the function. -/
def draft (fw : Framework) (b : Blueprint) : Draft NodeId := do
  let (parameters, statements) ← draftFields fw.attrsMember b.fields
  let handler := TypeExpr.generic fw.handlerType [b.propsType]
  let body ← Draft.parameter b.bodyParameter (some handler) (some "\x7b\x7d")
  let bodyCall ← Draft.call b.bodyParameter [] none
  let lambda ← Draft.lambda (statements ++ [bodyCall])
  let decl ← Draft.classRef b.componentName
  let call ← Draft.call fw.constructionFunction [decl] (some lambda)
  Draft.function { name := some b.functionName, receiver := some (.simple fw.builderReceiver) }
    (parameters ++ [body]) call

end Blueprint

namespace Change

/-- The tree as it is now, read with a framework in mind. -/
def source (fw : Framework) : Change Source := return { tree := ← get, framework := fw }

/-- Refuses a node that is not part of the file. -/
def needAttached (id : NodeId) : Change Unit := do
  unless (← get).attached id do throw (.detachedNode id)

end Change

/-- Generates the builder function of a component right after its class. -/
def Component.addBuilder (c : Component) (fw : Framework) : Change Builder := do
  Change.needAttached c.decl
  let blueprint ← liftExcept (Blueprint.of (← Change.source fw) c)
  let function ← blueprint.draft fw
  unless ← Draft.insertAfter c.decl function do throw (.detachedNode c.decl)
  return { component := c, function }

end ComponentAudit
