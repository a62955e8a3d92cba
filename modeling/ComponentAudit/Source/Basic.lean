import ComponentAudit.Component

set_option autoImplicit false

/-! # Sources and bindings

A source is a tree read with the names of a framework in mind. This module says what a bare
name is bound to. Parameters of the functions around it come first, then the declarations of
the file. A name without such a declaration is looked up in the implicit receivers in scope,
the innermost first: the element builder inside a construction lambda, and the receiver of an
extension function.

Main definitions: `Source.member?` finds a property through the supertypes of an interface,
and `Source.binding` says how a bare name is bound.
-/

namespace ComponentAudit

/-- A tree and the framework it uses. -/
structure Source where
  tree : Tree
  framework : Framework
  /-- Whether the statements inside bodies are known. Where they are not, no body has a flow
  graph. -/
  bodiesKnown : Bool := true

/-- What a name stands for. -/
inductive Target where
  /-- A declaration of the file. -/
  | declared (decl : NodeId)
  /-- A member that the framework provides. -/
  | member (owner name : String)
  | unresolved
deriving DecidableEq, Inhabited

/-- An object whose members can be named without naming the object. -/
structure Receiver where
  /-- The function or lambda that has the receiver. -/
  boundTo : NodeId
  type : TypeExpr
deriving DecidableEq, Inhabited

/-- How a bare name is bound. -/
inductive Binding where
  /-- By a parameter or a declaration of the file. -/
  | lexical (decl : NodeId)
  /-- As a member of an implicit receiver. -/
  | implicit (receiver : Receiver) (target : Target)
  | unbound
deriving DecidableEq

/-- The type that a declaration declares. -/
def Tree.declaredType? (t : Tree) (id : NodeId) : Option TypeExpr :=
  match t.kind id with
  | .parameter .. | .property _ => t.writtenType? id
  | .interface name _ | .classDecl name => some (.simple name)
  | _ => none

namespace Source

/-! ## Declarations in scope -/

/-- The first of some nodes that has a name. -/
def firstNamed? (s : Source) (name : String) (ids : List NodeId) : Option NodeId :=
  ids.find? fun id => s.tree.name? id == some name

/-- The declaration of a name, given the nodes around its use from the inside out. -/
def lexicalFrom? (s : Source) (name : String) : List NodeId → Option NodeId
  | [] => none
  | scope :: outer =>
    match s.tree.kind scope with
    | .function _ =>
      match s.firstNamed? name (s.tree.parameters scope) with
      | some parameter => some parameter
      | none => s.lexicalFrom? name outer
    | .file _ => s.tree.declaration? name fun k => k.isInterface || k.isClass || k.isFunction
    | _ => s.lexicalFrom? name outer

/-- The parameter or declaration that a name means at some place. -/
def lexical? (s : Source) (place : NodeId) (name : String) : Option NodeId :=
  s.lexicalFrom? name (s.tree.ancestors place)

/-! ## Members -/

/-- The interface or class that a type names. -/
def typeDeclaration? (s : Source) (type : TypeExpr) : Option NodeId :=
  s.tree.declaration? type.simpleName fun k => k.isInterface || k.isClass

/-- The property of a name that an interface or class declares itself. -/
def ownMember? (s : Source) (decl : NodeId) (name : String) : Option NodeId :=
  (s.tree.members decl).find? fun m => (s.tree.kind m).isProperty && s.tree.name? m == some name

/-- The property of a name in one of the pending types or their supertypes. Declarations seen
before are passed over, and the supertypes of an interface are searched from the last one on,
before the other pending types. -/
def searchMember? (s : Source) (name : String) : Nat → List NodeId → List TypeExpr → Option NodeId
  | 0, _, _ => none
  | _ + 1, _, [] => none
  | n + 1, seen, type :: pending =>
    match s.typeDeclaration? type with
    | none => s.searchMember? name n seen pending
    | some decl =>
      if seen.contains decl then s.searchMember? name n seen pending
      else match s.ownMember? decl name with
        | some m => some m
        | none =>
          s.searchMember? name n (decl :: seen)
            ((s.tree.kind decl).interfaceSupertypes.reverse ++ pending)

/-- How many types a search can meet: the first one, and each supertype written in the file. -/
def searchBound (s : Source) : Nat :=
  s.tree.declarations.foldr (fun d n => (s.tree.kind d).interfaceSupertypes.length + n) 0 + 2

/-- The property of a name that a type has, declared by itself or by a supertype. -/
def member? (s : Source) (owner : TypeExpr) (name : String) : Option NodeId :=
  s.searchMember? name s.searchBound [] [owner]

/-- What a name means as a member of a type. -/
def memberMeaning (s : Source) (owner : TypeExpr) (name : String) : Target :=
  if owner.isClass s.framework.elementBuilder && name == s.framework.attrsMember then
    .member s.framework.elementBuilder name
  else match s.member? owner name with
    | some decl => .declared decl
    | none => .unresolved

/-! ## Implicit receivers -/

/-- The class that a node uses as a value. -/
def classOf? (s : Source) (id : NodeId) : Option NodeId :=
  match s.tree.kind id with
  | .classRef name => s.tree.declaration? name Kind.isClass
  | _ => none

/-- The props type of the component whose class is the first argument of a call. -/
def constructedProps? (s : Source) (call : NodeId) : Option TypeExpr := do
  let arg ← (s.tree.arguments call).head?
  let decl ← s.classOf? arg
  let component ← Component.ofClass? s.tree s.framework decl
  component.argument? s.tree .props

/-- The receiver type inside a lambda that constructs a component: the element builder, for
the component's props if they are known. -/
def lambdaReceiver? (s : Source) (lambda : NodeId) : Option TypeExpr := do
  let call ← s.tree.parent lambda
  if s.tree.trailingLambda? call = some lambda ∧
      s.tree.calleeName? call = some s.framework.constructionFunction then
    some (.generic s.framework.elementBuilder (s.constructedProps? call).toList)
  else none

/-- The implicit receiver that a node introduces for what is inside it. -/
def receiverAt? (s : Source) (scope : NodeId) : Option Receiver :=
  match s.tree.kind scope with
  | .lambda => (s.lambdaReceiver? scope).map fun type => { boundTo := scope, type }
  | .function decl => decl.receiver.map fun type => { boundTo := scope, type }
  | _ => none

/-- The implicit receivers in scope at some place, the innermost first. -/
def receivers (s : Source) (place : NodeId) : List Receiver :=
  (s.tree.ancestors place).filterMap s.receiverAt?

/-! ## Bindings -/

/-- How a name is bound at some place. A name that no receiver has is taken for an unresolved
member of the innermost one. -/
def binding (s : Source) (place : NodeId) (name : String) : Binding :=
  match s.lexical? place name with
  | some decl => .lexical decl
  | none =>
    let receivers := s.receivers place
    match receivers.find? fun r => s.memberMeaning r.type name != .unresolved with
    | some r => .implicit r (s.memberMeaning r.type name)
    | none =>
      match receivers with
      | r :: _ => .implicit r .unresolved
      | [] => .unbound

end Source

namespace Binding

/-- The declaration in the file that a bound name means. -/
def declaration? : Binding → Option NodeId
  | lexical decl => some decl
  | implicit _ (.declared decl) => some decl
  | _ => none

/-- What a bound name accesses, and through which implicit receiver. -/
def access : Binding → Target × Option Receiver
  | lexical decl => (.declared decl, none)
  | implicit receiver target => (target, some receiver)
  | unbound => (.unresolved, none)

end Binding

end ComponentAudit
