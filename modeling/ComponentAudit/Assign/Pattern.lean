import ComponentAudit.Assign.State
import ComponentAudit.Flow.Lower

set_option autoImplicit false

/-! # Patterns of field writes

Which instructions write a field. Inside a construction lambda a field is written as a member
of the props that the lambda's own receiver holds, `attrs.field = value`. Inside a state
initialiser it is written by its bare name through the receiver of the function.

A write that fits the pattern and names none of the fields is a write of its own kind, because
an edit can delete it.
-/

namespace ComponentAudit

/-- What an instruction writes. -/
inductive Write where
  | field (field : Field) (assignment : Assignment)
  | unknown (assignment : Assignment)
deriving DecidableEq

/-- Which instructions write a field. -/
abbrev Matcher := InstrId → Option Write

namespace Write

/-- A write by name to one of some fields, or to none of them. -/
def byName (fields : List Field) (name : String) (a : Assignment) : Write :=
  match Field.named? fields name with
  | some f => field f a
  | none => unknown a

end Write

namespace Source

/-- The parameter whose value an assignment stores, when its right side is just a name. -/
def storedParameter? (s : Source) (assign : NodeId) : Option NodeId := do
  let (_, value) ← s.tree.operands? assign
  if (s.tree.kind value).isReference then
    (s.resolve? value).filter fun decl => (s.tree.kind decl).isParameter
  else none

/-- Origin and place of the assignment that an instruction stems from. -/
def assignmentOf (s : Source) (i : Instr) : Assignment :=
  let anchor := i.element.filter fun e => s.tree.kind e == .assign
  { anchor
    origin := match anchor.bind s.storedParameter? with
      | some decl => .parameter decl
      | none => .mixed }

/-- The type of an implicit receiver that belongs to the given function or lambda. -/
def receiverOf? (owner : NodeId) (receiver : Option Receiver) : Option TypeExpr :=
  (receiver.filter (·.boundTo = owner)).map (·.type)

/-- Whether an instruction reads the props that the receiver of a lambda holds. -/
def readsAttrs (s : Source) (lambda : NodeId) (i : Instr) : Bool :=
  match i.op with
  | .read (.member owner name) receiver =>
    owner == s.framework.elementBuilder && name == s.framework.attrsMember &&
      (receiverOf? lambda receiver).isSome
  | _ => false

/-- The field writes of a construction lambda: `attrs.field = value`, where `attrs` is read
through the lambda's own receiver and has the given type. -/
def builderMatcher (s : Source) (flow : Flow) (lambda : NodeId) (props : TypeExpr)
    (fields : List Field) : Matcher := fun i =>
  match (flow.instr i).op with
  | .write place _ _ => do
    guard (s.tree.kind place = .select)
    let (receiver, selector) ← s.tree.operands? place
    let read ← flow.valueAt? receiver
    guard (s.readsAttrs lambda (flow.instr read))
    guard (s.typeOf? receiver = some props)
    let name ← s.tree.referenceName? selector
    return .byName fields name (s.assignmentOf (flow.instr i))
  | _ => none

/-- The field writes of a state initialiser: `field = value` through the receiver of the
function, which has the given type. -/
def stateMatcher (s : Source) (flow : Flow) (function : NodeId) (state : TypeExpr)
    (fields : List Field) : Matcher := fun i =>
  match (flow.instr i).op with
  | .write place _ receiver => do
    let name ← s.tree.referenceName? place
    guard (receiverOf? function receiver = some state)
    return .byName fields name (s.assignmentOf (flow.instr i))
  | _ => none

end Source

end ComponentAudit
