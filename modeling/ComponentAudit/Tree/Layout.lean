import ComponentAudit.Tree.Basic

set_option autoImplicit false

/-! # The parts of a construct

Where the parts of each construct stand among its children: the parameters of a function, the
arguments of a call, the members of a class. Each function answers nothing for a node of
another kind, or for one whose children do not have the expected shape.
-/

namespace ComponentAudit.Tree

/-! ## Functions and lambdas -/

/-- The parameter list of a function, or the primary constructor of a class. -/
def parameterList? (t : Tree) (id : NodeId) : Option NodeId :=
  if (t.kind id).isFunction || (t.kind id).isClass then t.child? id (· == .parameterList)
  else none

/-- The parameters of a function or of a primary constructor. -/
def parameters (t : Tree) (id : NodeId) : List NodeId :=
  match t.parameterList? id with
  | some list => (t.children list).filter fun p => (t.kind p).isParameter
  | none => []

/-- The body of a function, a block or an expression. -/
def functionBody? (t : Tree) (id : NodeId) : Option NodeId :=
  if (t.kind id).isFunction then (t.significant id).find? fun c => t.kind c != .parameterList
  else none

/-- The block of a lambda. -/
def lambdaBody? (t : Tree) (id : NodeId) : Option NodeId :=
  if t.kind id = .lambda then t.child? id (· == .block) else none

/-! ## Calls and operators -/

/-- What a call calls. -/
def callee? (t : Tree) (id : NodeId) : Option NodeId :=
  if t.kind id = .call then (t.children id).head? else none

/-- The name that a node uses as an expression. -/
def referenceName? (t : Tree) (id : NodeId) : Option String := (t.kind id).referenceName?

/-- The name of the function that a call calls. -/
def calleeName? (t : Tree) (id : NodeId) : Option String := (t.callee? id).bind t.referenceName?

/-- The lambda behind the arguments of a call. -/
def trailingLambda? (t : Tree) (id : NodeId) : Option NodeId :=
  if t.kind id = .call then
    (t.children id).tail.getLast?.filter fun last => t.kind last == .lambda
  else none

/-- The arguments of a call, without the lambda behind them. -/
def arguments (t : Tree) (id : NodeId) : List NodeId :=
  if t.kind id = .call then
    (t.children id).tail.filter fun c => some c != t.trailingLambda? id
  else []

/-- Place and value of an assignment, or receiver and selector of a selection. -/
def operands? (t : Tree) (id : NodeId) : Option (NodeId × NodeId) :=
  if t.kind id = .assign || t.kind id = .select then
    match t.children id with
    | [left, right] => some (left, right)
    | _ => none
  else none

/-! ## Declarations -/

/-- The type reference on a declaration. -/
def typeRef? (t : Tree) (id : NodeId) : Option NodeId := t.child? id Kind.isTypeRef

/-- The type written on a property or a parameter. -/
def writtenType? (t : Tree) (id : NodeId) : Option TypeExpr :=
  (t.typeRef? id).bind fun r => (t.kind r).writtenType?

/-- The supertypes of a class. -/
def supertypes (t : Tree) (id : NodeId) : List NodeId :=
  (t.children id).filter fun c => (t.kind c).isSupertype

/-- The members of an interface or a class. -/
def members (t : Tree) (id : NodeId) : List NodeId :=
  if (t.kind id).isInterface then t.significant id
  else if (t.kind id).isClass then
    (t.significant id).filter fun c => t.kind c != .parameterList && !(t.kind c).isSupertype
  else []

/-- The declarations of the file. -/
def declarations (t : Tree) : List NodeId := t.significant t.root

/-- The first declaration of the file with a name and of a kind that passes a test. -/
def declaration? (t : Tree) (name : String) (test : Kind → Bool) : Option NodeId :=
  t.declarations.find? fun d => t.name? d == some name && test (t.kind d)

/-- The nearest file or class around a declaration. -/
def container? (t : Tree) (id : NodeId) : Option NodeId :=
  t.ancestor? id fun k => k.isFile || k.isClass

end ComponentAudit.Tree
