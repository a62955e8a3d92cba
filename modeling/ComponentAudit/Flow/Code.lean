import ComponentAudit.Flow.Graph
import ComponentAudit.Source.Typing

set_option autoImplicit false

/-! # Structured code

The control structure of a body, read off the tree: which instructions it performs in
sequence, where it branches and loops, and where it leaves. Names are resolved while reading,
so that code can be turned into a flow graph without the tree.

Lambdas and local declarations inside a body are single evaluations. An assignment or a
conditional used as an expression is code like the statement, and also a value.
-/

namespace ComponentAudit

/-- Where a statement that leaves goes. -/
inductive Leave where
  | returns
  | throws
  | breaks
  | continues
deriving DecidableEq

/-- Structured code. -/
inductive Code where
  | skip
  | seq (first second : Code)
  /-- One instruction. -/
  | step (op : Op) (element : NodeId)
  /-- Code whose last instruction produces the value of an expression. -/
  | value (node : NodeId) (code : Code)
  /-- Leaves for an exit or for the end or the start of the loop around. -/
  | leave (element : NodeId) (way : Leave)
  | branch (element : NodeId) (yes no : Code)
  | loop (element : NodeId) (condition body : Code)

/-- Pieces of code one after the other. -/
def Code.sequence (codes : List Code) : Code := codes.foldr .seq .skip

/-- How a node is used: as a statement, or as an expression whose value counts. -/
inductive Usage where
  | statement
  | expression
deriving DecidableEq

namespace Source

/-- Code of an optional part. -/
def optional (code : NodeId → Code) : Option NodeId → Code
  | some id => code id
  | none => .skip

/-- The code of an assignment, given the code of expressions. The receiver of the place is
evaluated first, then the value, and then the value is stored. -/
def assignCode (s : Source) (expr : NodeId → Code) (id : NodeId) : Code :=
  match s.tree.operands? id with
  | none => .step .eval id
  | some (place, value) =>
    let store (target : Target) (receiver : Option Receiver) : Code :=
      .seq (expr value) (.step (.write place target receiver) id)
    match s.tree.kind place with
    | .select =>
      match s.tree.operands? place with
      | some (receiver, selector) => .seq (expr receiver) (store (s.selected selector) none)
      | none => store .unresolved none
    | .reference _ => store (s.access place).1 (s.access place).2
    | _ => .seq (expr place) (store .unresolved none)

/-- The code of a conditional, given the code of nodes: the condition, then a branch. -/
def ifCode (s : Source) (code : Usage → NodeId → Code) (id : NodeId) : Code :=
  let children := s.tree.children id
  .seq (optional (code .expression) children[0]?)
    (.branch id (optional (code .statement) children[1]?) (optional (code .statement) children[2]?))

/-- The code of a statement that leaves, given the code of expressions. -/
def leaveCode (s : Source) (expr : NodeId → Code) (id : NodeId) (way : Leave) : Code :=
  .seq (optional expr (s.tree.children id)[0]?) (.leave id way)

/-- The code of a node, down to a bounded number of levels below it. -/
def codeWithin (s : Source) : Nat → Usage → NodeId → Code
  | 0, _, _ => .skip
  | n + 1, usage, id =>
    let code := s.codeWithin n
    let expr := code .expression
    match usage, s.tree.kind id with
    | .statement, .assign => s.assignCode expr id
    | .statement, .ifElse => s.ifCode code id
    | .statement, .whileLoop =>
      let children := s.tree.children id
      .loop id (optional expr children[0]?) (optional (code .statement) children[1]?)
    | .statement, .block => .sequence ((s.tree.significant id).map (code .statement))
    | .statement, .returns => s.leaveCode expr id .returns
    | .statement, .throws => s.leaveCode expr id .throws
    | .statement, .breaks => .leave id .breaks
    | .statement, .continues => .leave id .continues
    | .statement, .blank _ | .statement, .comment _ => .skip
    | .statement, .function _ | .statement, .classDecl _ | .statement, .property _ => .step .eval id
    | _, .reference _ => .value id (.step (.read (s.access id).1 (s.access id).2) id)
    | _, .select =>
      match s.tree.operands? id with
      | some (receiver, selector) =>
        .value id (.value selector
          (.seq (expr receiver) (.step (.read (s.selected selector) none) id)))
      | none => .value id (.step .eval id)
    | _, .call =>
      let operands := s.tree.arguments id ++ (s.tree.trailingLambda? id).toList
      .value id (.seq (.sequence (operands.map expr)) (.step .call id))
    | _, .ifElse => .value id (s.ifCode code id)
    | _, .assign => .value id (.seq (s.assignCode expr id) (.step .eval id))
    | _, _ => .value id (.step .eval id)

/-- The code of a body: a block as a statement, anything else as an expression. -/
def bodyCode (s : Source) (body : NodeId) : Code :=
  s.codeWithin s.tree.size (if s.tree.kind body = .block then .statement else .expression) body

end Source

end ComponentAudit
