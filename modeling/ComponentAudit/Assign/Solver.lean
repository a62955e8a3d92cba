import ComponentAudit.Assign.Pattern

set_option autoImplicit false

/-! # Solving for assignment states

The state at an instruction is the merge of the states at its eligible predecessors, in their
order, followed by what the instruction itself writes. States are found by walking the graph
backwards and are remembered. While the predecessors of an instruction are being solved its
own state is pending, and a cycle that comes back to it adds nothing.

The walk keeps the instructions it is inside of on a stack of frames (`Solver.run`). Every
step either uses up a predecessor of the topmost frame or closes it, and an instruction is
opened only once, which bounds the number of steps by the size of the graph (`Flow.effort`).
-/

namespace ComponentAudit

/-- The states found so far, one place for each instruction. -/
abbrev Memo := Array (Option State)

namespace Memo

/-- Nothing found yet. -/
def empty (f : Flow) : Memo := Array.replicate f.size none

/-- The state found at an instruction. -/
def find? (m : Memo) (i : InstrId) : Option State := m.getD i none

/-- Remembers a state. -/
def put (m : Memo) (i : InstrId) (s : State) : Memo := m.setIfInBounds i (some s)

/-- The number of instructions with a remembered state. -/
def count (m : Memo) : Nat := m.toList.countP Option.isSome

end Memo

/-- An instruction that the walk is inside of. -/
structure Frame where
  instr : InstrId
  /-- The predecessors still to be looked at. -/
  rest : List InstrId
  merged : Merge := {}

/-- What is being solved: a graph, and which of its instructions write fields. -/
structure Solver where
  tree : Tree
  flow : Flow
  matcher : Matcher

/-- A bound for the number of steps that solve a graph. -/
def Flow.effort (f : Flow) : Nat :=
  f.instrs.toList.foldr (fun i n => i.preds.length + 1 + n) 0 + 1

namespace Solver

/-- The frame of an instruction that has just been opened. -/
def frame (s : Solver) (i : InstrId) : Frame := { instr := i, rest := s.flow.preds i }

/-- The frame with the state at a predecessor added. -/
def joined (s : Solver) (fr : Frame) (state : State) : Frame :=
  { fr with merged := fr.merged.join s.tree state }

/-- The state at an instruction, once the paths to it have been merged. -/
def close (s : Solver) (i : InstrId) (m : Merge) : State :=
  match s.matcher i with
  | some (.field f a) => (m.write f a).state
  | some (.unknown a) => (m.writeUnknown a).state
  | none => m.state

/-- Walks on with a stack of frames, for a bounded number of steps. Answers the state at the
lowest frame and all states found. -/
def run (s : Solver) : Nat → Memo → List Frame → State × Memo
  | 0, memo, _ => (.empty, memo)
  | _ + 1, memo, [] => (.empty, memo)
  | n + 1, memo, fr :: below =>
    match fr.rest with
    | p :: rest =>
      let fr := { fr with rest }
      if s.flow.eligible p then
        match memo.find? p with
        | some state => s.run n memo (s.joined fr state :: below)
        | none => s.run n (memo.put p .pending) (s.frame p :: fr :: below)
      else s.run n memo (fr :: below)
    | [] =>
      let state := s.close fr.instr fr.merged
      let memo := memo.put fr.instr state
      match below with
      | [] => (state, memo)
      | fr :: below => s.run n memo (s.joined fr state :: below)

/-- The state at an instruction, with the states found on the way. -/
def solve (s : Solver) (memo : Memo) (i : InstrId) : State × Memo :=
  match memo.find? i with
  | some state => (state, memo)
  | none => s.run s.flow.effort (memo.put i .pending) [s.frame i]

/-- The state at the end of a body: what is assigned on every path that completes normally. -/
def atSink (s : Solver) : State := (s.solve (Memo.empty s.flow) s.flow.sink).1

end Solver

end ComponentAudit
