import ComponentAudit.Assign.Solver

set_option autoImplicit false

/-! # Constructions and initialisers

Where the fields of a component get their values. A construction is a call `child(C::class)`
with a lambda behind it that assigns the props of the component `C`; a builder function is an
extension function of the framework's builder whose body is such a call. A state initialiser is
a member function of the component that assigns the fields of its state.

Main definitions: `Construction.gaps?` compares the fields that the props declare with what
the lambda assigns, and `Initializer.missing` does so for the state.
-/

namespace ComponentAudit

/-- A field that is assigned a parameter of another type. -/
structure Mismatch where
  field : Field
  parameter : NodeId
deriving DecidableEq

/-- How the assignments of a construction differ from the declared fields. -/
structure Gaps where
  /-- The fields not assigned on every path, in the order of declaration. -/
  missing : List Field
  /-- The writes that name no field. -/
  unknown : List Assignment
  outdated : List Mismatch
  /-- Whether the children may be left out. This is not analysed, so they always may. -/
  childrenNotSet : Bool := true
deriving DecidableEq

/-- Whether nothing differs. -/
def Gaps.upToDate (g : Gaps) : Bool := g.missing.isEmpty && g.unknown.isEmpty && g.outdated.isEmpty

namespace Source

/-- The entry of a field that is assigned a parameter of another type. Both types have to be
known. -/
def outdated? (s : Source) (f : Field) (a : Assignment) : Option Mismatch :=
  match a.origin with
  | .parameter parameter => do
    let declared ← f.type
    let written ← s.tree.declaredType? parameter
    if written = declared then none else some { field := f, parameter }
  | .mixed => none

/-- How a state differs from the declared fields. -/
def gaps (s : Source) (state : State) (fields : List Field) : Gaps where
  missing := fields.filter fun f => !state.assigns f
  unknown := state.unknown
  outdated := state.assigned.filterMap fun (f, a) => s.outdated? f a

end Source

/-! ## Constructions -/

/-- A call that constructs a component. -/
structure Construction where
  component : Component
  call : NodeId
deriving DecidableEq

namespace Construction

/-- The construction that a call is: one of the construction function, with a component's
class as the first argument. -/
def ofCall? (s : Source) (call : NodeId) : Option Construction := do
  guard (s.tree.calleeName? call = some s.framework.constructionFunction)
  let arg ← (s.tree.arguments call).head?
  let decl ← s.classOf? arg
  let component ← Component.ofClass? s.tree s.framework decl
  return { component, call }

def lambda? (c : Construction) (t : Tree) : Option NodeId := t.trailingLambda? c.call

/-- The block of the lambda. -/
def body? (c : Construction) (t : Tree) : Option NodeId := (c.lambda? t).bind t.lambdaBody?

/-- The fields of the component's props, if they have a schema. -/
def fields? (c : Construction) (s : Source) : Option (List Field) :=
  (c.component.schema? s .props).map (·.fields s)

/-- What is assigned at the end of the lambda. -/
def state? (c : Construction) (s : Source) : Option State := do
  let fields ← c.fields? s
  let lambda ← c.lambda? s.tree
  let props ← c.component.argument? s.tree .props
  let flow ← s.flow? lambda
  let matcher := s.builderMatcher flow lambda props fields
  return Solver.atSink { tree := s.tree, flow, matcher }

/-- The fields that some path leaves out: all of them when the lambda cannot be analysed. -/
def missing (c : Construction) (s : Source) : List Field :=
  let state := (c.state? s).getD .empty
  ((c.fields? s).getD []).filter fun f => !state.assigns f

/-- How the lambda differs from the declared fields, if these have a schema. A lambda
that cannot be analysed assigns nothing. -/
def gaps? (c : Construction) (s : Source) : Option Gaps :=
  (c.fields? s).map fun fields => s.gaps ((c.state? s).getD .empty) fields

end Construction

/-! ## Builder functions -/

/-- A function that builds a component. -/
structure Builder where
  component : Component
  function : NodeId
deriving DecidableEq

/-- Whether a function extends the framework's builder. -/
def Source.extendsBuilder (s : Source) (function : NodeId) : Bool :=
  (s.tree.kind function).receiver?.any (·.isClass s.framework.builderReceiver)

namespace Builder

/-- The builder function that a function is, judged by its body. -/
def ofFunction? (s : Source) (function : NodeId) : Option Builder := do
  guard (s.extendsBuilder function)
  let call ← s.tree.functionBody? function
  let construction ← Construction.ofCall? s call
  return { component := construction.component, function }

/-- The call that the function consists of. -/
def construction? (b : Builder) (t : Tree) : Option Construction := do
  let call ← t.functionBody? b.function
  guard (t.kind call = .call)
  return { component := b.component, call }

end Builder

/-- The builder function whose body a construction is. -/
def Construction.builder? (c : Construction) (s : Source) : Option Builder := do
  let function ← s.tree.parent c.call
  guard (s.extendsBuilder function && s.tree.functionBody? function = some c.call)
  return { component := c.component, function }

namespace Component

/-- The function beside the component that has the name and the receiver of its builder
function. -/
def builder? (c : Component) (s : Source) : Option Builder := do
  let name ← c.builderName? s.tree
  let container ← s.tree.container? c.decl
  let function ← (s.tree.significant container).find? fun f =>
    (s.tree.kind f).isFunction && s.tree.name? f == some name && s.extendsBuilder f
  return { component := c, function }

/-- The calls in the file that construct the component. -/
def constructions (c : Component) (s : Source) : List Construction :=
  let classRefs := (s.uses c.decl).filter fun use => (s.tree.kind use).isClassRef
  (classRefs.filterMap s.tree.parent).filterMap fun call =>
    (Construction.ofCall? s call).filter (·.component = c)

end Component

/-! ## State initialisers -/

/-- A function that gives the state its first values. -/
structure Initializer where
  component : Component
  function : NodeId
  /-- The parameter that takes the props, if there is one. -/
  propsParameter : Option NodeId
deriving DecidableEq

namespace Component

/-- The state initialiser that a member is: an extension function of the right name that takes
nothing, or the props. -/
def initializer? (c : Component) (s : Source) (member : NodeId) : Option Initializer := do
  guard ((s.tree.kind member).receiver?.isSome)
  guard (s.tree.name? member = some s.framework.stateInitFunction)
  let props := c.argument? s.tree .props
  match s.tree.parameters member with
  | [] => return { component := c, function := member, propsParameter := none }
  | [p] =>
    guard (props.isNone || s.tree.writtenType? p = props)
    return { component := c, function := member, propsParameter := some p }
  | _ => none

/-- The state initialisers of a component. -/
def initializers (c : Component) (s : Source) : List Initializer :=
  (s.tree.members c.decl).filterMap (c.initializer? s)

end Component

namespace Initializer

/-- What is assigned at the end of the initialiser, if it can be analysed. -/
def state? (i : Initializer) (s : Source) (fields : List Field) : Option State := do
  let flow ← s.flow? i.function
  let state ← i.component.argument? s.tree .state
  let matcher := s.stateMatcher flow i.function state fields
  return Solver.atSink { tree := s.tree, flow, matcher }

/-- The fields of the state that some path leaves out. -/
def missing (i : Initializer) (s : Source) : List Field :=
  match i.component.schema? s .state with
  | none => []
  | some schema =>
    let fields := schema.fields s
    let state := (i.state? s fields).getD .empty
    fields.filter fun f => !state.assigns f

end Initializer

end ComponentAudit
