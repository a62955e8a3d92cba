import ComponentAudit.Framework
import ComponentAudit.Text.Lowercase
import ComponentAudit.Tree.Layout

set_option autoImplicit false

/-! # Components

A component is a class with the framework's base type among its supertypes. The arguments of
that base type name the interfaces of the component's props and its state.

A component is held as the numbers of two nodes, the class and the supertype, and everything
else is looked up in the tree when it is asked for. So a component stays valid while the file
around it is edited.
-/

namespace ComponentAudit

/-- What an interface declares the fields of: the props of a component or its state. -/
inductive Role where
  | props
  | state
deriving DecidableEq, Inhabited

namespace Role

/-- The name of the role in messages. -/
def title : Role → String
  | props => "RProps"
  | state => "RState"

/-- What the name of an interface of this role ends in, after the component's name. -/
def suffix : Role → String
  | props => "Props"
  | state => "State"

/-- The place of the interface in a file: props, then state, then the component. -/
def order : Role → Nat
  | props => 1
  | state => 2

/-- The place of the interface among the arguments of the component's base type. -/
def argumentIndex : Role → Nat
  | props => 0
  | state => 1

/-- The framework's base type for interfaces of this role. -/
def base (fw : Framework) : Role → String
  | props => fw.propsBase
  | state => fw.stateBase

end Role

/-- A class seen as a component. -/
structure Component where
  /-- The class. -/
  decl : NodeId
  /-- The supertype that names the framework's base class. -/
  base : NodeId
deriving DecidableEq, Inhabited

/-- The type of a supertype node. -/
def Tree.supertype? (t : Tree) (id : NodeId) : Option TypeExpr :=
  match t.kind id with
  | .supertype type _ => some type
  | _ => none

namespace Component

/-- The component that a class is, if it extends the base class. -/
def ofClass? (t : Tree) (fw : Framework) (id : NodeId) : Option Component :=
  if (t.kind id).isClass then
    ((t.supertypes id).find? fun s => (t.supertype? s).any (·.isClass fw.componentBase)).map
      fun base => { decl := id, base }
  else none

/-- The components among the declarations of the file. -/
def all (t : Tree) (fw : Framework) : List Component := t.declarations.filterMap (ofClass? t fw)

def name? (c : Component) (t : Tree) : Option String := t.name? c.decl

/-- The base class as written, with its arguments. -/
def baseType? (c : Component) (t : Tree) : Option TypeExpr := t.supertype? c.base

/-- The props or the state type. -/
def argument? (c : Component) (t : Tree) (role : Role) : Option TypeExpr :=
  (c.baseType? t).bind fun type => type.args[role.argumentIndex]?

/-- The simple name of the props or the state type, that of the framework's base type when
the component names none. -/
def argumentName (c : Component) (t : Tree) (fw : Framework) (role : Role) : String :=
  match c.argument? t role with
  | some type => type.simpleName
  | none => role.base fw

/-- Whether the props or the state type is one of the component's own. -/
def hasOwn (c : Component) (t : Tree) (fw : Framework) (role : Role) : Bool :=
  (c.argument? t role).any fun type => !type.isClass (role.base fw)

/-- Whether the constructor of the base class is called with an argument. -/
def passesProps (c : Component) (t : Tree) : Bool :=
  match t.kind c.base with
  | .supertype _ call => call && !(t.significant c.base).isEmpty
  | _ => false

/-- The name a builder function of the component has. -/
def builderName? (c : Component) (t : Tree) : Option String := (c.name? t).map Text.lowerFirst

end Component

end ComponentAudit
