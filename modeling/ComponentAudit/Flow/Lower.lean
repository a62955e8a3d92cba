import ComponentAudit.Flow.Code

set_option autoImplicit false

/-! # From code to flow graphs

Code becomes a flow graph by adding instructions one after the other. At each moment there is
at most one instruction from which control falls through to the next one; after code has left
there is none, and the instructions that follow come out dead.

Main definitions: `Code.lower` adds the instructions of a piece of code to a graph, and
`Source.flow?` is the flow graph of a function, a lambda or a block.
-/

namespace ComponentAudit

/-- A graph under construction. -/
structure Lowering where
  flow : Flow
  /-- The instruction from which control falls through. -/
  current : Option InstrId

/-- Where to go on from inside a loop, and where to leave it. -/
structure LoopEnds where
  again : InstrId
  done : InstrId

namespace Lowering

/-- The number of the next instruction. -/
def next (l : Lowering) : InstrId := l.flow.size

/-- Adds an instruction that no edge leads to. -/
def place (l : Lowering) (op : Op) (element : NodeId) : Lowering :=
  { l with flow := l.flow.push op (some element) }

/-- Adds an edge from an instruction, if there is one. -/
def link (l : Lowering) (start : Option InstrId) (stop : InstrId) : Lowering :=
  match start with
  | some start => { l with flow := l.flow.connect start stop }
  | none => l

/-- Adds an instruction that control falls through to. -/
def perform (l : Lowering) (op : Op) (element : NodeId) : Lowering :=
  { (l.place op element).link l.current l.next with current := some l.next }

/-- Lets control go to an instruction, and nowhere else. -/
def goTo (l : Lowering) (target : InstrId) : Lowering :=
  { l.link l.current target with current := none }

/-- Lets control fall through from somewhere else. -/
def resumeAt (l : Lowering) (current : Option InstrId) : Lowering := { l with current }

/-- Notes that the last instruction produced the value of an expression. -/
def record (l : Lowering) (node : NodeId) : Lowering :=
  match l.current with
  | some i => { l with flow := l.flow.noteValue node i }
  | none => l

end Lowering

/-- The entry of every body. -/
def entryId : InstrId := 0

/-- The exit of every body for normal completion. -/
def exitId : InstrId := 1

/-- The exit of every body for failure. -/
def failureId : InstrId := 2

/-- Where a statement that leaves goes. Outside a loop there is no place to break off to or to
continue at. -/
def Leave.target? (loop : Option LoopEnds) : Leave → Option InstrId
  | returns => some exitId
  | throws => some failureId
  | breaks => loop.map (·.done)
  | continues => loop.map (·.again)

/-- Adds the instructions of a piece of code to a graph, inside the given loop. -/
def Code.lower : Code → Option LoopEnds → Lowering → Lowering
  | .skip, _, l => l
  | .seq first second, ends, l => second.lower ends (first.lower ends l)
  | .step op element, _, l => l.perform op element
  | .value node code, ends, l => (code.lower ends l).record node
  | .leave element way, ends, l =>
    let l := l.perform .jump element
    match way.target? ends with
    | some target => l.goTo target
    | none => l.resumeAt none
  | .branch element yes no, ends, l =>
    let afterYes := yes.lower ends l
    let afterNo := no.lower ends (afterYes.resumeAt l.current)
    let join := afterNo.next
    (((afterNo.place .jump element).link afterYes.current join).link afterNo.current join).resumeAt
      (some join)
  | .loop element condition body, ends, l =>
    let again := l.next
    let atStart := ((l.place .jump element).goTo again).resumeAt (some again)
    let tested := condition.lower ends atStart
    let done := tested.next
    let inside := (tested.place .jump element).link tested.current done
    ((body.lower (some { again, done }) inside).goTo again).resumeAt (some done)

/-- The graph of an owner with its entry and its two exits only. -/
def Lowering.start (owner : NodeId) : Lowering :=
  { flow := (((Flow.push { owner } .enter (some owner)).push (.exit false) (some owner)).push
      (.exit true) (some owner))
    current := some entryId }

/-- The flow graph of code that makes up the body of an owner. -/
def Code.flow (code : Code) (owner : NodeId) : Flow :=
  let body := ((code.lower none (Lowering.start owner)).goTo exitId).flow
  let sink := body.size
  (((body.push .sink none).connect exitId sink).connect failureId sink).complete entryId sink

namespace Source

/-- The body of a function, a lambda or a block. -/
def bodyOf? (s : Source) (owner : NodeId) : Option NodeId :=
  match s.tree.kind owner with
  | .lambda => s.tree.lambdaBody? owner
  | .function _ => s.tree.functionBody? owner
  | .block => some owner
  | _ => none

/-- The flow graph of a function, a lambda or a block. -/
def flow? (s : Source) (owner : NodeId) : Option Flow :=
  if s.bodiesKnown then (s.bodyOf? owner).map fun body => (s.bodyCode body).flow owner else none

end Source

end ComponentAudit
