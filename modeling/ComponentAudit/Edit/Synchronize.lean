import ComponentAudit.Edit.Generate

set_option autoImplicit false

/-! # Synchronising builder functions

Brings a builder function in line with the props of its component. Parameters that are stored
in a field of another type get that field's type. A field that is not assigned gets a parameter
and an assignment, in the order of declaration. Assignments that name no field are removed, and
so are parameters that the lambda does not use in the end.

The children parameter makes way when a field has its name: it is renamed together with its
uses. It is known by its type.

Main definitions: `Source.syncPlan` decides the edits and `Builder.synchronize` makes them.
-/

namespace ComponentAudit

/-- The statement of a block that a node lies in. -/
def Tree.statementAround? (t : Tree) (block node : NodeId) : Option NodeId :=
  (t.lineage node).find? fun n => t.parent n == some block

namespace Builder

/-- The construction of a builder function. -/
def needConstruction (b : Builder) (t : Tree) : Except EditError Construction :=
  match b.construction? t with
  | some construction => .ok construction
  | none => .error (.missingConstructionCall b.function)

/-- The block of the lambda behind a builder function's call. -/
def needBody (b : Builder) (t : Tree) : Except EditError NodeId := do
  let construction ← b.needConstruction t
  match construction.body? t with
  | some body => return body
  | none => throw (.missingLambdaBody construction.call)

end Builder

/-- What the edits of a builder function are decided from. -/
structure SyncTask where
  source : Source
  /-- The parameter list of the function. -/
  list : NodeId
  /-- The block of the lambda. -/
  body : NodeId
  /-- The fields of the props. -/
  fields : List Field
  /-- What the lambda assigns. -/
  state : State
  /-- The parameters of the function. -/
  parameters : List NodeId

namespace SyncTask

/-- The task for a builder function. What it lacks is reported in a fixed order. -/
def of (s : Source) (b : Builder) : Except EditError SyncTask := do
  let t := s.tree
  unless t.attached b.function do throw (.detachedNode b.function)
  let some list := t.parameterList? b.function | throw (.missingParameterList b.function)
  let construction ← b.needConstruction t
  let some lambda := construction.lambda? t | throw (.missingLambdaBody construction.call)
  let some body := t.lambdaBody? lambda | throw (.missingLambdaBody construction.call)
  let some schema := b.component.schema? s .props
    | throw (.missingPropsInterface b.component.decl)
  let some state := construction.state? s | throw (.missingControlFlow lambda)
  return {
    source := s, list, body, fields := schema.fields s, state,
    parameters := t.parameters b.function }

/-- The parameter for the children: the first one of the handler type. -/
def handler? (k : SyncTask) : Option NodeId :=
  k.parameters.find? fun p =>
    (k.source.tree.writtenType? p).any (·.isClass k.source.framework.handlerType)

/-- The edits for parameters that are stored in a field of another type. -/
def retypeOutdated (k : SyncTask) : Plan :=
  (k.source.gaps k.state k.fields).outdated.filterMap fun o =>
    match o.field.type with
    | some type => if o.parameter ∈ k.parameters then some (.retype o.parameter type) else none
    | none => none

/-- The edits that rename the children parameter and its uses, when a field has its name. -/
def renameHandler (k : SyncTask) : Plan :=
  match k.handler? with
  | none => []
  | some handler =>
    match k.source.tree.name? handler with
    | none => []
    | some current =>
      if Field.taken k.fields current then
        let new := bodyName k.source.framework.bodyParameter k.fields
        let uses := (k.source.namesBelow k.body).filter fun n => k.source.resolve? n == some handler
        (handler :: uses).map fun n => .rename n new
      else []

/-- A plan in the making, with the places after which the next parameter and the next
statement go. -/
structure Progress where
  plan : Plan
  parameter : Option Anchor := none
  statement : Option Anchor := none

/-- The parameter that already has the name of a field, the one for the children apart. -/
def existing? (k : SyncTask) (name : String) : Option NodeId :=
  k.parameters.find? fun p => some p != k.handler? && k.source.tree.name? p == some name

/-- Makes sure that a field which is not assigned has a parameter of its type. -/
def supplyParameter (k : SyncTask) (p : Progress) (f : Field) (name : String) : Progress :=
  match k.existing? name with
  | some parameter =>
    let plan := match f.type, k.source.tree.declaredType? parameter with
      | some type, some written =>
        if written = type then p.plan else p.plan ++ [.retype parameter type]
      | _, _ => p.plan
    { p with plan, parameter := some (.existing parameter) }
  | none =>
    let (plan, anchor) := p.plan.push (.addParameter k.list p.parameter name f.type)
    { p with plan, parameter := anchor }

/-- Plans the assignment of a field that is not assigned. -/
def supplyStatement (k : SyncTask) (p : Progress) (name : String) : Progress :=
  let (plan, anchor) :=
    p.plan.push (.addAssignment k.body p.statement k.source.framework.attrsMember name)
  { p with plan, statement := anchor }

/-- Passes a field that is assigned: what comes next goes after its parameter and after the
statement that assigns it. -/
def passField (k : SyncTask) (p : Progress) (a : Assignment) : Progress :=
  { p with
    parameter := match a.origin with
      | .parameter decl => if decl ∈ k.parameters then some (.existing decl) else p.parameter
      | .mixed => p.parameter
    statement := (a.anchor.bind (k.source.tree.statementAround? k.body)).map .existing }

/-- Plans what a field needs. A field without a name needs nothing. -/
def planField (k : SyncTask) (p : Progress) (f : Field) : Progress :=
  match f.name with
  | none => p
  | some name =>
    match k.state.get? f with
    | some a => k.passField p a
    | none => k.supplyStatement (k.supplyParameter p f name) name

/-- The writes inside the lambda that name no field, each once. -/
def strayWrites (k : SyncTask) : List NodeId :=
  let t := k.source.tree
  ((k.state.unknown.filterMap (·.anchor)).filter fun n => n != k.body && t.isWithin n k.body).foldl
    (fun seen n => if n ∈ seen then seen else seen ++ [n]) []

/-- All edits, except the removal of parameters without a use. -/
def plan (k : SyncTask) : Plan :=
  let start : Progress := { plan := k.retypeOutdated ++ k.renameHandler }
  (k.fields.foldl k.planField start).plan ++ k.strayWrites.map .dropStatement

end SyncTask

namespace Source

/-- The edits that bring a builder function in line with its props, except the removal of
parameters without a use. -/
def syncPlan (s : Source) (b : Builder) : Except EditError Plan := (SyncTask.of s b).map (·.plan)

/-- The edits that remove the parameters of a builder function which its lambda does not use. -/
def unusedPlan (s : Source) (b : Builder) : Except EditError Plan := do
  let body ← b.needBody s.tree
  let used := (s.namesBelow body).filterMap s.resolve?
  return ((s.tree.parameters b.function).filter fun p => !used.contains p).map .dropParameter

/-- The edits that remove the statements of a builder function's lambda which use a field. -/
def fieldPlan (s : Source) (b : Builder) (f : Field) : Except EditError Plan := do
  let body ← b.needBody s.tree
  let uses (statement : NodeId) : Bool :=
    (s.namesBelow statement).any fun n => s.resolve? n == some f.decl
  return ((s.tree.significant body).filter uses).map .dropStatement

end Source

namespace Builder

/-- Removes the parameters of a builder function that its lambda does not use. Answers the
number of edits. -/
def dropUnused (b : Builder) (fw : Framework) : Change Nat := do
  let plan ← liftExcept ((← Change.source fw).unusedPlan b)
  plan.apply

/-- Brings a builder function in line with its component's props. Answers the number of edits,
none when nothing differs. -/
def synchronize (b : Builder) (fw : Framework) : Change Nat := do
  let plan ← liftExcept ((← Change.source fw).syncPlan b)
  let applied ← plan.apply
  let removed ← b.dropUnused fw
  return applied + removed

/-- Removes the statements that use a field from a builder function's lambda, and then the
parameters without a use. The field has to be declared still. Answers the number of edits. -/
def dropField (b : Builder) (fw : Framework) (f : Field) : Change Nat := do
  let plan ← liftExcept ((← Change.source fw).fieldPlan b f)
  let removed ← plan.apply
  let unused ← b.dropUnused fw
  return removed + unused

end Builder

end ComponentAudit
