import ComponentAudit.Tree.Draft
import ComponentAudit.Tree.Layout

set_option autoImplicit false

/-! # Plans of edits

Changes of a file are first decided on a tree that stays as it is and then made in one go. A
plan is a list of edits; an edit that inserts can refer to nodes that earlier edits of the same
plan insert, which have no number yet.

A plan is checked as a whole before the first edit (`Plan.check`), so a plan that is refused
changes nothing.
-/

namespace ComponentAudit

/-- Why a change is refused. -/
inductive EditError where
  | missingParameterList (function : NodeId)
  | missingConstructionCall (function : NodeId)
  | missingLambdaBody (call : NodeId)
  | missingPropsInterface (component : NodeId)
  | missingControlFlow (lambda : NodeId)
  | detachedNode (node : NodeId)
  | notAComponent (node : NodeId)
  | interfaceExists (decl : NodeId)
  | notRenamable (node : NodeId)
  /-- A rename was asked for without a name. -/
  | missingName (target : NodeId)
  /-- The target of a fix is not in the file any more, or has become something else. -/
  | staleTarget (target : NodeId)
deriving DecidableEq

/-- The number of a node in messages. -/
def showNode (id : NodeId) : String := "NodeId(" ++ toString id ++ ")"

/-- The wording of a refusal. -/
def EditError.message : EditError → String
  | missingParameterList f => "builder function " ++ showNode f ++ " has no parameter list"
  | missingConstructionCall f =>
    "builder function " ++ showNode f ++ " is not a construction call with a trailing lambda"
  | missingLambdaBody c => "construction call " ++ showNode c ++ " has no lambda body"
  | missingPropsInterface c => "component " ++ showNode c ++ " has no props interface"
  | missingControlFlow l => "no control flow for " ++ showNode l
  | detachedNode n => "node " ++ showNode n ++ " is not part of the tree"
  | notAComponent n => showNode n ++ " is not a component class"
  | interfaceExists d => "component already has interface " ++ showNode d
  | notRenamable n => "node " ++ showNode n ++ " is neither a parameter nor a name reference"
  | missingName n => "rename of " ++ showNode n ++ " needs a new name"
  | staleTarget n => "fix target " ++ showNode n ++ " no longer matches the tree"

/-- A change of a tree that may be refused. What was changed before a refusal stays changed. -/
abbrev Change := ExceptT EditError (StateM Tree)

/-- Makes a change. -/
def Change.run {α : Type} (c : Change α) (t : Tree) : Except EditError α × Tree :=
  StateT.run (ExceptT.run c) t

/-- Where to insert: after a node of the tree, or after the node that the plan inserts as the
one of that number. -/
inductive Anchor where
  | existing (node : NodeId)
  | pending (index : Nat)
deriving DecidableEq

/-- A single edit. -/
inductive Edit where
  /-- Sets the written type of a parameter. -/
  | retype (parameter : NodeId) (type : TypeExpr)
  /-- Inserts a parameter after the anchor, or as the first one. -/
  | addParameter (list : NodeId) (after : Option Anchor) (name : String) (type : Option TypeExpr)
  /-- Inserts `receiver.field = field` after the anchor, or as the first statement. -/
  | addAssignment (block : NodeId) (after : Option Anchor) (receiver field : String)
  /-- Removes a statement and the blank right after it. -/
  | dropStatement (statement : NodeId)
  | dropParameter (parameter : NodeId)
  /-- Renames a parameter or a name used as an expression. -/
  | rename (node : NodeId) (name : String)
deriving DecidableEq

namespace Edit

/-- Whether an edit inserts a node. -/
def inserts : Edit → Bool
  | addParameter .. | addAssignment .. => true
  | _ => false

/-- The node of an anchor that is in the tree. -/
def anchored : Option Anchor → List NodeId
  | some (.existing node) => [node]
  | _ => []

/-- The nodes of the tree that an edit refers to, in the order in which they are checked. -/
def subjects : Edit → List NodeId
  | retype parameter _ => [parameter]
  | addParameter list after _ _ => list :: anchored after
  | addAssignment block after _ _ => block :: anchored after
  | dropStatement statement => [statement]
  | dropParameter parameter => [parameter]
  | rename node _ => [node]

/-- Whether an edit can be made: all its nodes are in the file, and a rename has a name to
change. -/
def check (t : Tree) (e : Edit) : Except EditError Unit :=
  match e.subjects.find? fun n => !t.attached n with
  | some n => .error (.detachedNode n)
  | none =>
    match e with
    | rename node _ =>
      if (t.kind node).isParameter || (t.kind node).isReference then .ok ()
      else .error (.notRenamable node)
    | _ => .ok ()

end Edit

namespace Anchor

/-- The node of an anchor, given the nodes inserted so far. -/
def node? (created : List NodeId) : Anchor → Option NodeId
  | existing node => some node
  | pending index => created[index]?

end Anchor

namespace Tree

/-- Inserts a node after an anchor that hangs below the parent, and as its first child when
there is no such anchor. -/
def insertUnder (t : Tree) (parent : NodeId) (anchor : Option NodeId) (id : NodeId) : Tree :=
  match anchor.filter fun a => t.parent a == some parent with
  | some a => (t.insertAfter a id).2
  | none => t.insertChild parent 0 id

/-- Removes a statement and the blank right after it. -/
def dropStatement (t : Tree) (statement : NodeId) : Tree :=
  match (t.next? statement).filter fun n => (t.kind n).isBlank with
  | some blank => (t.detach blank).detach statement
  | none => t.detach statement

/-- Renames a parameter or a name used as an expression. -/
def renameLocal (t : Tree) (id : NodeId) (name : String) : Tree :=
  match t.kind id with
  | .parameter _ initial => t.setKind id (.parameter name initial)
  | .reference _ => t.setKind id (.reference name)
  | _ => t

/-- Sets the written type of a parameter. -/
def setWrittenType (t : Tree) (id : NodeId) (type : TypeExpr) : Tree :=
  match t.typeRef? id with
  | some ref => t.setKind ref (.typeRef type)
  | none => (Draft.annotate id (some type)).run t |>.2

end Tree

namespace Edit

/-- Makes an edit, given the nodes that earlier edits inserted. Answers the node it inserts. -/
def perform (created : List NodeId) : Edit → Draft (Option NodeId)
  | retype parameter type => do
    modify (·.setWrittenType parameter type)
    return none
  | addParameter list after name type => do
    let id ← Draft.parameter name type none
    modify (·.insertUnder list (after.bind (·.node? created)) id)
    return some id
  | addAssignment block after receiver field => do
    let id ← Draft.assignMember receiver field field
    modify (·.insertUnder block (after.bind (·.node? created)) id)
    let newline ← Draft.newline
    let _ ← Draft.insertAfter id newline
    return some id
  | dropStatement statement => do
    modify (·.dropStatement statement)
    return none
  | dropParameter parameter => do
    modify (·.detach parameter)
    return none
  | rename node name => do
    modify (·.renameLocal node name)
    return none

/-- Makes edits one after the other. -/
def performAll (created : List NodeId) : List Edit → Draft Unit
  | [] => return
  | e :: es => do
    let new ← e.perform created
    performAll (created ++ new.toList) es

end Edit

/-- Edits to be made together, in order. -/
abbrev Plan := List Edit

namespace Plan

/-- The number of nodes that a plan inserts. -/
def insertions (p : Plan) : Nat := p.countP Edit.inserts

/-- The plan with one more edit, and an anchor for the node that this edit inserts. -/
def push (p : Plan) (e : Edit) : Plan × Option Anchor :=
  (p ++ [e], if e.inserts then some (.pending p.insertions) else none)

/-- Whether every edit can be made. -/
def check (p : Plan) (t : Tree) : Except EditError Unit := p.forM (·.check t)

/-- Makes all edits, or none if one of them cannot be made. Answers their number. -/
def apply (p : Plan) : Change Nat := do
  liftExcept (p.check (← get))
  Edit.performAll [] p
  return p.length

end Plan

end ComponentAudit
