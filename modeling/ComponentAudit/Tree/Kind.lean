import ComponentAudit.TypeExpr

set_option autoImplicit false

/-! # Kinds of nodes

What a node of a source tree stands for, with the data it carries besides its children. The
children of each kind, in order:

* `file`: declarations;
* `interface`: members;
* `property`, `parameter`: an optional `typeRef`;
* `classDecl`: an optional `parameterList`, the primary constructor, then `supertype` nodes,
  then members;
* `supertype`: the arguments of the constructor call, if it is one;
* `function`: a `parameterList`, then the body, a `block` or an expression;
* `lambda`: a `block`;
* `call`: the callee, the arguments, and an optional `lambda` at the end;
* `assign`: the place and the value;
* `select`: the receiver and the selector;
* `ifElse`: the condition, a `block`, and an optional second `block`;
* `whileLoop`: the condition and a `block`;
* `returns`, `throws`: an optional expression.

Nothing enforces this layout: the operations on trees work for any children.
-/

namespace ComponentAudit

/-- What a property declares. -/
structure PropertyDecl where
  name : Option String
  mutable : Bool
  /-- The type that an extension property extends. -/
  receiver : Option TypeExpr := none
  /-- Whether the compiler made the property up. -/
  synthesized : Bool := false
deriving DecidableEq, Inhabited

/-- What a function declares, its parameters and its body apart. -/
structure FunctionDecl where
  name : Option String
  /-- The type that an extension function extends. -/
  receiver : Option TypeExpr := none
  overrides : Bool := false
deriving DecidableEq, Inhabited

/-- What a node stands for. -/
inductive Kind where
  | file (name : String)
  | interface (name : String) (supertypes : List TypeExpr)
  | property (decl : PropertyDecl)
  /-- A function of an interface, which has neither parameters nor a body here. -/
  | method (name : String)
  | classDecl (name : String)
  | supertype (type : TypeExpr) (call : Bool)
  | function (decl : FunctionDecl)
  | parameterList
  | parameter (name : String) (initial : Option String)
  | typeRef (type : TypeExpr)
  | block
  | lambda
  | call
  /-- A class used as a value, `C::class`. -/
  | classRef (name : String)
  | assign
  | select
  /-- A name used as an expression. -/
  | reference (name : String)
  | literal (text : String)
  | ifElse
  | whileLoop
  | returns
  | throws
  | breaks
  | continues
  | blank (text : String)
  | comment (text : String)
deriving DecidableEq, Inhabited

namespace Kind

/-- Blanks and comments, which carry no meaning. -/
def isTrivia : Kind → Bool
  | blank _ | comment _ => true
  | _ => false

/-- The name that a node declares or uses. -/
def name? : Kind → Option String
  | file name | interface name _ | method name | classDecl name | parameter name _
  | reference name => some name
  | property decl => decl.name
  | function decl => decl.name
  | _ => none

/-- The kind with another name, for the kinds that declare one. -/
def renamed? (new : String) : Kind → Option Kind
  | interface _ supertypes => some (interface new supertypes)
  | classDecl _ => some (classDecl new)
  | method _ => some (method new)
  | parameter _ initial => some (parameter new initial)
  | property decl => some (property { decl with name := some new })
  | function decl => some (function { decl with name := some new })
  | _ => none

/-- The type that a type reference writes. -/
def writtenType? : Kind → Option TypeExpr
  | typeRef type => some type
  | _ => none

/-- The type that an extension function extends. -/
def receiver? : Kind → Option TypeExpr
  | function decl => decl.receiver
  | _ => none

/-- The supertypes of an interface. -/
def interfaceSupertypes : Kind → List TypeExpr
  | interface _ supertypes => supertypes
  | _ => []

/-- The name of a name used as an expression. -/
def referenceName? : Kind → Option String
  | reference name => some name
  | _ => none

def isInterface : Kind → Bool
  | interface .. => true
  | _ => false

def isProperty : Kind → Bool
  | property _ => true
  | _ => false

def isClass : Kind → Bool
  | classDecl _ => true
  | _ => false

def isFunction : Kind → Bool
  | function _ => true
  | _ => false

def isFile : Kind → Bool
  | file _ => true
  | _ => false

def isParameter : Kind → Bool
  | parameter .. => true
  | _ => false

def isReference : Kind → Bool
  | reference _ => true
  | _ => false

def isClassRef : Kind → Bool
  | classRef _ => true
  | _ => false

def isSupertype : Kind → Bool
  | supertype .. => true
  | _ => false

def isTypeRef : Kind → Bool
  | typeRef _ => true
  | _ => false

def isBlank : Kind → Bool
  | blank _ => true
  | _ => false

end Kind

end ComponentAudit
