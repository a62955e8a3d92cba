import ComponentAudit.Tree.Basic

set_option autoImplicit false

/-! # Drafting subtrees

Steps that add nodes to a tree without attaching them: each makes one construct of the source
language from its parts and answers the number of its topmost node. Parts given as nodes are
moved below the new node from wherever they hang. Numbers are handed out in the order in which
nodes are made, so a name that a construct contains comes before the construct itself.
-/

namespace ComponentAudit

/-- A step that works on a tree. -/
abbrev Draft := StateM Tree

namespace Draft

/-- A node without children. -/
def leaf (kind : Kind) : Draft NodeId := modifyGet fun t => (t.size, t.push kind)

/-- Moves nodes below another one, behind its children. -/
def adopt (parent : NodeId) (ids : List NodeId) : Draft Unit :=
  modify fun t => ids.foldl (·.appendChild parent) t

/-- A node with the given children. -/
def branch (kind : Kind) (ids : List NodeId) : Draft NodeId := do
  let id ← leaf kind
  adopt id ids
  return id

def detach (id : NodeId) : Draft Unit := modify (·.detach id)

def setKind (id : NodeId) (kind : Kind) : Draft Unit := modify (·.setKind id kind)

def insertAfter (anchor id : NodeId) : Draft Bool := modifyGet (·.insertAfter anchor id)

def insertBefore (anchor id : NodeId) : Draft Bool := modifyGet (·.insertBefore anchor id)

def insertChild (parent : NodeId) (index : Nat) (id : NodeId) : Draft Unit :=
  modify (·.insertChild parent index id)

def replace (old new : NodeId) : Draft Bool := modifyGet (·.replace old new)

/-! ## Expressions -/

def reference (name : String) : Draft NodeId := leaf (.reference name)

def literal (text : String) : Draft NodeId := leaf (.literal text)

def classRef (name : String) : Draft NodeId := leaf (.classRef name)

def blank (text : String) : Draft NodeId := leaf (.blank text)

def newline : Draft NodeId := blank "\n"

def comment (text : String) : Draft NodeId := leaf (.comment text)

def typeRef (type : TypeExpr) : Draft NodeId := leaf (.typeRef type)

def select (receiver selector : NodeId) : Draft NodeId := branch .select [receiver, selector]

def assign (place value : NodeId) : Draft NodeId := branch .assign [place, value]

/-- The statement `receiver.field = value`, all three of them names. -/
def assignMember (receiver field value : String) : Draft NodeId := do
  let receiver ← reference receiver
  let field ← reference field
  let place ← select receiver field
  let value ← reference value
  assign place value

def block (statements : List NodeId) : Draft NodeId := branch .block statements

def lambda (statements : List NodeId) : Draft NodeId := do
  branch .lambda [← block statements]

/-- A call of a named function, with a lambda behind the arguments or without. -/
def call (callee : String) (args : List NodeId) (lambda : Option NodeId) : Draft NodeId := do
  let callee ← reference callee
  let call ← branch .call [callee]
  adopt call (args ++ lambda.toList)
  return call

/-! ## Statements -/

def ifElse (condition : NodeId) (yes : List NodeId) (no : Option (List NodeId)) :
    Draft NodeId := do
  let yes ← block yes
  let id ← branch .ifElse [condition, yes]
  if let some no := no then
    let no ← block no
    adopt id [no]
  return id

def whileLoop (condition : NodeId) (body : List NodeId) : Draft NodeId := do
  let body ← block body
  branch .whileLoop [condition, body]

def returns (value : Option NodeId) : Draft NodeId := branch .returns value.toList

def throws (value : NodeId) : Draft NodeId := branch .throws [value]

def breaks : Draft NodeId := leaf .breaks

def continues : Draft NodeId := leaf .continues

/-! ## Declarations -/

/-- Writes a type, if there is one, on a declaration. -/
def annotate (decl : NodeId) : Option TypeExpr → Draft Unit
  | none => return
  | some type => do
    let type ← typeRef type
    adopt decl [type]

def parameter (name : String) (type : Option TypeExpr) (initial : Option String) :
    Draft NodeId := do
  let id ← leaf (.parameter name initial)
  annotate id type
  return id

def parameterList (parameters : List NodeId) : Draft NodeId :=
  branch .parameterList parameters

def function (decl : FunctionDecl) (parameters : List NodeId) (body : NodeId) :
    Draft NodeId := do
  let list ← parameterList parameters
  branch (.function decl) [list, body]

def property (name : String) (type : Option TypeExpr) (mutable : Bool) : Draft NodeId := do
  let id ← leaf (.property { name := some name, mutable })
  annotate id type
  return id

def interface (name : String) (supertypes : List TypeExpr) (members : List NodeId) :
    Draft NodeId :=
  branch (.interface name supertypes) members

/-- A supertype of a class, which is a constructor call when arguments are given. -/
def supertype (type : TypeExpr) (args : Option (List NodeId)) : Draft NodeId :=
  branch (.supertype type args.isSome) (args.getD [])

/-- A class, with a primary constructor when its parameters are given. -/
def classDecl (name : String) (constructor : Option (List NodeId))
    (supertypes members : List NodeId) : Draft NodeId := do
  let id ← leaf (.classDecl name)
  if let some parameters := constructor then
    let list ← parameterList parameters
    adopt id [list]
  adopt id (supertypes ++ members)
  return id

/-- Makes a node the last declaration of the file. -/
def declare (id : NodeId) : Draft NodeId := do
  modify fun t => t.appendChild t.root id
  return id

end Draft

end ComponentAudit
