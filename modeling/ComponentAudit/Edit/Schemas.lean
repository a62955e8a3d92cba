import ComponentAudit.Edit.Generate

set_option autoImplicit false

/-! # Wiring schemas

Creates and removes the props and the state interface of a component, and threads the props
through its constructor. A component with props takes them as the only parameter of its primary
constructor and hands them to the base class:

    class Foo(props: FooProps) : RComponent<FooProps, RState>(props)
-/

namespace ComponentAudit

/-- The name of the constructor parameter that takes the props. -/
def propsParameterName : String := "props"

/-- A type with one of its arguments replaced, if it has that many. -/
def TypeExpr.setArg? (type : TypeExpr) (index : Nat) (arg : TypeExpr) : Option TypeExpr :=
  if index < type.args.length then some { type with args := type.args.set index arg } else none

namespace Tree

/-- Makes a supertype a constructor call. -/
def makeCall (t : Tree) (entry : NodeId) : Tree :=
  match t.kind entry with
  | .supertype type _ => t.setKind entry (.supertype type true)
  | _ => t

/-- Makes a supertype a constructor call with exactly the given arguments. -/
def callWith (t : Tree) (entry : NodeId) (args : List NodeId) : Tree :=
  let t := t.makeCall entry
  let t := (t.children entry).foldl (·.detach ·) t
  args.foldl (·.appendChild entry ·) t

/-- Changes the type of a supertype. -/
def retypeSupertype (t : Tree) (entry : NodeId) (f : TypeExpr → TypeExpr) : Tree :=
  match t.kind entry with
  | .supertype type call => t.setKind entry (.supertype (f type) call)
  | _ => t

end Tree

namespace Component

/-- Sets the props or the state type among the arguments of the base class. Answers `false`
when there is no argument at that place. -/
def setArgument (c : Component) (role : Role) (type : TypeExpr) : Draft Bool := do
  let t ← get
  match t.kind c.base with
  | .supertype base call =>
    match base.setArg? role.argumentIndex type with
    | some base =>
      set (t.setKind c.base (.supertype base call))
      return true
    | none => return false
  | _ => return false

/-- Drops the primary constructor. -/
def dropConstructor (c : Component) : Draft Unit := do
  if let some list := (← get).parameterList? c.decl then Draft.detach list

/-- Makes the primary constructor take the props and hand them to the base class. -/
def passProps (c : Component) (props : TypeExpr) : Change Unit := do
  Change.needAttached c.decl
  let passed := c.passesProps (← get)
  c.dropConstructor
  let parameter ← Draft.parameter propsParameterName (some props) none
  let list ← Draft.parameterList [parameter]
  Draft.insertChild c.decl 0 list
  unless passed do
    let forwarded ← Draft.reference propsParameterName
    modify fun t => t.callWith c.base [forwarded]

/-- Drops the primary constructor, and makes the base class one without props, called without
arguments. -/
def dropProps (c : Component) (fw : Framework) : Change Unit := do
  Change.needAttached c.decl
  let state := (c.argument? (← get) .state).getD (.simple fw.stateBase)
  c.dropConstructor
  modify fun t => t.retypeSupertype c.base fun type =>
    .generic type.name [.simple fw.propsBase, state]
  modify fun t => t.callWith c.base []

end Component

/-- The node before which a new interface of a component goes, which keeps the order props,
state, component. -/
def Component.schemaPlace (c : Component) (s : Source) : Role → NodeId
  | .props => ((c.schema? s .state).map (·.decl)).getD c.decl
  | .state => c.decl

/-- Creates the props or the state interface of a component that has none, and wires it in.
Answers the interface. -/
def Component.createSchema (c : Component) (fw : Framework) (role : Role) : Change NodeId := do
  Change.needAttached c.decl
  let s ← Change.source fw
  if let some found := c.schema? s role then throw (.interfaceExists found.decl)
  let some componentName := c.name? s.tree | throw (.notAComponent c.decl)
  let place := c.schemaPlace s role
  let name := componentName ++ role.suffix
  let decl ← Draft.interface name [.simple (role.base fw)] []
  unless ← Draft.insertBefore place decl do throw (.detachedNode place)
  let _ ← c.setArgument role (.simple name)
  if role = .props then c.passProps (.simple name)
  return decl

/-- The components that use a schema, with their state initialisers. -/
def Schema.users (i : Schema) (s : Source) : List (Component × List Initializer) :=
  ((Component.all s.tree s.framework).filter fun c =>
    (c.schema? s i.role).any (·.decl = i.decl)).map fun c => (c, c.initializers s)

/-- Takes a schema from a component. Without props the constructor and the
initialisers take none; without state there is nothing to initialise. -/
def Component.unwire (c : Component) (fw : Framework) (initializers : List Initializer) :
    Role → Change Unit
  | .props => do
    c.dropProps fw
    modify fun t => (initializers.filterMap (·.propsParameter)).foldl (·.detach ·) t
  | .state => do
    let _ ← c.setArgument .state (.simple fw.stateBase)
    modify fun t => (initializers.map (·.function)).foldl (·.detach ·) t

/-- Takes a schema from each of some components. -/
def unwireAll (fw : Framework) (role : Role) : List (Component × List Initializer) → Change Unit
  | [] => return
  | (c, initializers) :: rest => do
    c.unwire fw initializers role
    unwireAll fw role rest

/-- Removes a schema and takes it from every component that uses it. Answers their number. -/
def Schema.remove (i : Schema) (fw : Framework) : Change Nat := do
  Change.needAttached i.decl
  let users := i.users (← Change.source fw)
  unwireAll fw i.role users
  Draft.detach i.decl
  return users.length

end ComponentAudit
