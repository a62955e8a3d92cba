import ComponentAudit.Source.Basic

set_option autoImplicit false

/-! # Flow graphs

The steps of a function or lambda body as instructions, linked by edges from each instruction
to those that may come next. Every edge is known at both ends. A body has one entry, one exit
for normal completion and one for failure, and both exits lead to the sink.

An instruction is dead when no path leads to it from the entry. The flags are set once, when
the graph is complete (`Flow.complete`).

Like those of nodes, the numbers of instructions are not bounded. Where they are kept in 32 bits,
such a graph stands for a body of fewer than 2 ^ 32 instructions.
-/

namespace ComponentAudit

/-- The number of an instruction in its graph. -/
abbrev InstrId := Nat

/-- What an instruction does. -/
inductive Op where
  | enter
  | read (target : Target) (receiver : Option Receiver)
  /-- Stores into a place, the left operand of an assignment. -/
  | write (place : NodeId) (target : Target) (receiver : Option Receiver)
  | call
  /-- Any other evaluation. -/
  | eval
  /-- A point where control goes elsewhere or comes together. -/
  | jump
  | exit (failed : Bool)
  | sink
deriving DecidableEq, Inhabited

/-- An instruction of a flow graph. -/
structure Instr where
  op : Op
  /-- The node that the instruction stems from. -/
  element : Option NodeId := none
  preds : List InstrId := []
  succs : List InstrId := []
  dead : Bool := false
deriving DecidableEq, Inhabited

/-- Whether the instruction is the exit for failure. -/
def Instr.isFailure (i : Instr) : Bool := i.op == .exit true

/-- The flow graph of a body. -/
structure Flow where
  /-- The function, lambda or block whose body this is. -/
  owner : NodeId
  instrs : Array Instr := #[]
  entry : InstrId := 0
  sink : InstrId := 0
  /-- Which instruction produced the value of an expression, the latest entry first. -/
  values : List (NodeId × InstrId) := []
deriving Inhabited

namespace Flow

/-- The number of instructions. -/
def size (f : Flow) : Nat := f.instrs.size

/-- The instruction of a number. -/
def instr (f : Flow) (i : InstrId) : Instr := f.instrs.getD i { op := .eval }

def preds (f : Flow) (i : InstrId) : List InstrId := (f.instr i).preds

def succs (f : Flow) (i : InstrId) : List InstrId := (f.instr i).succs

/-- The instruction that produced the value of an expression. -/
def valueAt? (f : Flow) (node : NodeId) : Option InstrId := f.values.lookup node

/-! ## Building a graph -/

/-- The graph with one more instruction, without edges. Its number is the size before. -/
def push (f : Flow) (op : Op) (element : Option NodeId) : Flow :=
  { f with instrs := f.instrs.push { op, element } }

/-- A list with one more item at its end, unless it is there already. -/
def addOnce (xs : List InstrId) (x : InstrId) : List InstrId :=
  if x ∈ xs then xs else xs ++ [x]

/-- The graph with an edge between two instructions, entered at both ends. -/
def connect (f : Flow) (start stop : InstrId) : Flow :=
  { f with
    instrs := (f.instrs.modify start fun i => { i with succs := addOnce i.succs stop }).modify stop
      fun i => { i with preds := addOnce i.preds start } }

/-- Notes which instruction produced the value of an expression. -/
def noteValue (f : Flow) (node : NodeId) (i : InstrId) : Flow :=
  { f with values := (node, i) :: f.values }

@[simp] theorem size_push (f : Flow) (op : Op) (element : Option NodeId) :
    (f.push op element).size = f.size + 1 := by simp [size, push]

@[simp] theorem size_connect (f : Flow) (start stop : InstrId) :
    (f.connect start stop).size = f.size := by simp [size, connect]

@[simp] theorem size_noteValue (f : Flow) (node : NodeId) (i : InstrId) :
    (f.noteValue node i).size = f.size := rfl

theorem instr_push (f : Flow) (op : Op) (element : Option NodeId) (i : InstrId) :
    (f.push op element).instr i = if i = f.size then { op, element } else f.instr i := by
  simp only [instr, push, size, Array.getD_eq_getD_getElem?, Array.getElem?_push]
  split <;> rfl

@[simp] theorem mem_addOnce {xs : List InstrId} {x y : InstrId} :
    y ∈ addOnce xs x ↔ y ∈ xs ∨ y = x := by
  unfold addOnce
  split
  · next h => exact ⟨.inl, fun hy => hy.elim id (· ▸ h)⟩
  · simp

/-! ## Dead instructions -/

/-- The instructions seen so far together with those that can be reached from another one,
on paths of a bounded length. -/
def reachFrom (f : Flow) : Nat → List InstrId → InstrId → List InstrId
  | 0, seen, _ => seen
  | n + 1, seen, i =>
    if i ∈ seen then seen else (f.succs i).foldl (f.reachFrom n) (i :: seen)

/-- The instructions that can be reached from one. -/
def reachable (f : Flow) (start : InstrId) : List InstrId := f.reachFrom f.size [] start

/-- Fixes the entry and the sink and marks the instructions that the entry does not reach. -/
def complete (f : Flow) (entry sink : InstrId) : Flow :=
  let live := f.reachable entry
  { f with entry, sink, instrs := f.instrs.mapIdx fun i instr => { instr with dead := i ∉ live } }

@[simp] theorem size_complete (f : Flow) (entry sink : InstrId) :
    (f.complete entry sink).size = f.size := by simp [size, complete]

/-- Whether a predecessor counts for what is assigned before an instruction: one that can be
reached and is not the exit for failure. -/
def eligible (f : Flow) (i : InstrId) : Bool := !(f.instr i).dead && !(f.instr i).isFailure

end Flow

end ComponentAudit
