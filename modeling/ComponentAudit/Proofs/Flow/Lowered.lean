import ComponentAudit.Flow.Lower
import ComponentAudit.Proofs.Flow.Paths

set_option autoImplicit false

/-! # What lowering adds to a graph

Lowering threads a graph through a piece of code. What comes out is described here without the
graph: the instructions that the code adds (`Code.nodes`), the edges that it adds, in order
(`Code.edges`), and where control falls through at its end (`Code.out`). All three depend only
on where the code is put: the number of its first instruction, the instruction that control
comes from, and the loop around.

Main statements: `Code.lower_extends`, which says that lowering adds exactly these, and
`mem_succs_flow`, which lists the edges of the graph of a body.
-/

namespace ComponentAudit

/-- An edge by its two ends. -/
abbrev Edge := InstrId × InstrId

/-! ## The parts of lowered code -/

namespace Code

/-- The instructions that a piece of code adds. -/
def nodes : Code → List (Op × NodeId)
  | .skip => []
  | .seq first second => first.nodes ++ second.nodes
  | .step op element => [(op, element)]
  | .value _ code => code.nodes
  | .leave element _ => [(.jump, element)]
  | .branch element yes no => yes.nodes ++ no.nodes ++ [(.jump, element)]
  | .loop element condition body =>
    (.jump, element) :: (condition.nodes ++ (.jump, element) :: body.nodes)

/-- The number of instructions that a piece of code adds. -/
def size (c : Code) : Nat := c.nodes.length

@[simp] theorem size_skip : skip.size = 0 := rfl

@[simp] theorem size_seq (a b : Code) : (seq a b).size = a.size + b.size := by
  simp [size, nodes]

@[simp] theorem size_step (op : Op) (e : NodeId) : (step op e).size = 1 := rfl

@[simp] theorem size_value (n : NodeId) (c : Code) : (value n c).size = c.size := rfl

@[simp] theorem size_leave (e : NodeId) (way : Leave) : (leave e way).size = 1 := rfl

@[simp] theorem size_branch (e : NodeId) (a b : Code) :
    (branch e a b).size = a.size + b.size + 1 := by
  simp [size, nodes, Nat.add_assoc]

@[simp] theorem size_loop (e : NodeId) (c b : Code) : (loop e c b).size = c.size + b.size + 2 := by
  simp [size, nodes]; lia

/-- Where control falls through at the end of a piece of code. -/
def out : Code → Option InstrId → InstrId → Option InstrId
  | .skip, current, _ => current
  | .seq first second, current, next => second.out (first.out current next) (next + first.size)
  | .step _ _, _, next => some next
  | .value _ code, current, next => code.out current next
  | .leave _ _, _, _ => none
  | .branch _ yes no, _, next => some (next + yes.size + no.size)
  | .loop _ condition _, _, next => some (next + 1 + condition.size)

/-- Control falls through where it came from, or at an instruction of the code. -/
theorem out_cases {c : Code} {current : Option InstrId} {next i : InstrId}
    (h : c.out current next = some i) : current = some i ∨ next ≤ i ∧ i < next + c.size := by
  induction c generalizing current next i with
  | skip => exact .inl h
  | seq first second ihf ihs =>
      rw [size_seq]
      rcases ihs h with h | h
      · have := ihf h
        lia
      · lia
  | step op e =>
      cases h
      simp
  | value n code ih => exact ih h
  | leave e way => cases h
  | branch e yes no =>
      have hi : next + yes.size + no.size = i := Option.some.inj h
      rw [size_branch]
      lia
  | loop e condition body =>
      have hi : next + 1 + condition.size = i := Option.some.inj h
      rw [size_loop]
      lia

/-- Control comes out of the condition of a loop at the start of the loop or in the condition. -/
theorem tested_range {c : Code} {next i : InstrId} (h : c.out (some next) (next + 1) = some i) :
    next ≤ i ∧ i < next + 1 + c.size := by
  rcases out_cases h with h | h
  · cases h
    lia
  · lia

end Code

/-- The edge from an instruction, if there is one. -/
def edgeFrom (start : Option InstrId) (stop : InstrId) : List Edge := start.toList.map (·, stop)

@[simp] theorem mem_edgeFrom {start : Option InstrId} {stop : InstrId} {e : Edge} :
    e ∈ edgeFrom start stop ↔ start = some e.1 ∧ e.2 = stop := by
  cases start with
  | none => simp [edgeFrom]
  | some s =>
      rcases e with ⟨a, b⟩
      simp [edgeFrom, eq_comm]

/-- The edges that a piece of code adds, in order. -/
def Code.edges : Code → Option LoopEnds → Option InstrId → InstrId → List Edge
  | .skip, _, _, _ => []
  | .seq first second, ends, current, next =>
    first.edges ends current next ++
      second.edges ends (first.out current next) (next + first.size)
  | .step _ _, _, current, next => edgeFrom current next
  | .value _ code, ends, current, next => code.edges ends current next
  | .leave _ way, ends, current, next =>
    edgeFrom current next ++ (way.target? ends).toList.map (next, ·)
  | .branch _ yes no, ends, current, next =>
    let second := next + yes.size
    let join := second + no.size
    yes.edges ends current next ++ no.edges ends current second ++
      (edgeFrom (yes.out current next) join ++ edgeFrom (no.out current second) join)
  | .loop _ condition body, ends, current, next =>
    let tested := condition.out (some next) (next + 1)
    let done := next + 1 + condition.size
    let inner : LoopEnds := { again := next, done }
    edgeFrom current next ++ condition.edges ends (some next) (next + 1) ++ edgeFrom tested done ++
      (body.edges (some inner) tested (done + 1) ++ edgeFrom (body.out tested (done + 1)) next)

/-! ## Where the edges of a piece of code lead -/

namespace Code

section

variable {a b c : Code} {e : NodeId} {ends : Option LoopEnds} {current : Option InstrId}
  {next u v : InstrId}

theorem mem_edges_seq : (u, v) ∈ (seq a b).edges ends current next ↔
    (u, v) ∈ a.edges ends current next ∨
      (u, v) ∈ b.edges ends (a.out current next) (next + a.size) :=
  List.mem_append

theorem mem_edges_step {op : Op} : (u, v) ∈ (step op e).edges ends current next ↔
    current = some u ∧ v = next :=
  mem_edgeFrom

theorem mem_edges_leave {way : Leave} : (u, v) ∈ (leave e way).edges ends current next ↔
    (current = some u ∧ v = next) ∨ (u = next ∧ way.target? ends = some v) := by
  simp only [edges, List.mem_append, mem_edgeFrom, List.mem_map, Option.mem_toList,
    Prod.mk.injEq]
  refine or_congr_right ⟨?_, ?_⟩
  · rintro ⟨target, htarget, rfl, rfl⟩
    exact ⟨rfl, htarget⟩
  · rintro ⟨rfl, htarget⟩
    exact ⟨v, htarget, rfl, rfl⟩

/-- The edges of a conditional: those of its branches, and from the end of each to the point where
they come together. -/
theorem mem_edges_branch : (u, v) ∈ (branch e a b).edges ends current next ↔
    (u, v) ∈ a.edges ends current next ∨ (u, v) ∈ b.edges ends current (next + a.size) ∨
      (a.out current next = some u ∧ v = next + a.size + b.size) ∨
      (b.out current (next + a.size) = some u ∧ v = next + a.size + b.size) := by
  simp only [edges, List.mem_append, mem_edgeFrom, or_assoc]

/-- The edges of a loop: the one to its start, those of the condition, the one to the place after
the loop, those of the body and the one back. -/
theorem mem_edges_loop : (u, v) ∈ (loop e c b).edges ends current next ↔
    (current = some u ∧ v = next) ∨ (u, v) ∈ c.edges ends (some next) (next + 1) ∨
      (c.out (some next) (next + 1) = some u ∧ v = next + 1 + c.size) ∨
      (u, v) ∈ b.edges (some { again := next, done := next + 1 + c.size })
        (c.out (some next) (next + 1)) (next + 1 + c.size + 1) ∨
      (b.out (c.out (some next) (next + 1)) (next + 1 + c.size + 1) = some u ∧ v = next) := by
  simp only [edges, List.mem_append, mem_edgeFrom, or_assoc]

end

end Code

/-- Edges of a piece of code start at one of its instructions or where control comes from. -/
theorem Code.edges_source {c : Code} {ends : Option LoopEnds} {current : Option InstrId}
    {next a b : InstrId} (h : (a, b) ∈ c.edges ends current next) :
    current = some a ∨ next ≤ a ∧ a < next + c.size := by
  induction c generalizing ends current next with
  | skip => cases h
  | seq first second ihf ihs =>
      rw [size_seq]
      rcases mem_edges_seq.mp h with h | h
      · have := ihf h
        lia
      · rcases ihs h with h | h
        · rcases out_cases h with h | h
          · exact .inl h
          · lia
        · lia
  | step op element => exact .inl (mem_edges_step.mp h).1
  | value node code ih => exact ih h
  | leave element way =>
      rcases mem_edges_leave.mp h with ⟨h, -⟩ | ⟨rfl, -⟩
      · exact .inl h
      · rw [size_leave]
        lia
  | branch element yes no ihy ihn =>
      rw [size_branch]
      rcases mem_edges_branch.mp h with h | h | ⟨h, -⟩ | ⟨h, -⟩
      · have := ihy h
        lia
      · have := ihn h
        lia
      · have := out_cases h
        lia
      · have := out_cases h
        lia
  | loop element condition body ihc ihb =>
      rw [size_loop]
      rcases mem_edges_loop.mp h with ⟨h, -⟩ | h | ⟨h, -⟩ | h | ⟨h, -⟩
      · exact .inl h
      · have := ihc h
        lia
      · have := out_cases h
        lia
      -- control comes to the body from the condition, and there from the start of the loop
      · rcases ihb h with h | h
        · have := out_cases h
          lia
        · lia
      · rcases out_cases h with h | h
        · have := out_cases h
          lia
        · lia

/-- All edges of a loop start in it, but for the one to its start. -/
theorem Code.edges_source_loop {c b : Code} {e : NodeId} {ends : Option LoopEnds}
    {current : Option InstrId} {next u v : InstrId}
    (h : (u, v) ∈ (loop e c b).edges ends current next) :
    (current = some u ∧ v = next) ∨ next ≤ u ∧ u < next + (loop e c b).size := by
  rw [size_loop]
  rcases mem_edges_loop.mp h with h | h | ⟨h, -⟩ | h | ⟨h, -⟩
  · exact .inl h
  · rcases edges_source h with h | h
    · cases h
      lia
    · lia
  · have := tested_range h
    lia
  · rcases edges_source h with h | h
    · have := tested_range h
      lia
    · lia
  · rcases out_cases h with h | h
    · have := tested_range h
      lia
    · lia

/-- Whether control, if it comes to a piece of code, comes from an instruction before it. -/
def ComesBefore (current : Option InstrId) (next : InstrId) : Prop :=
  ∀ i, current = some i → i < next

namespace ComesBefore

variable {current : Option InstrId} {next next' : InstrId}

theorem start (next : InstrId) : ComesBefore (some next) (next + 1) := by
  intro i hi
  cases hi
  exact Nat.lt_succ_self next

theorem mono (h : ComesBefore current next) (hle : next ≤ next') : ComesBefore current next' :=
  fun i hi => Nat.lt_of_lt_of_le (h i hi) hle

theorem ne (h : ComesBefore current next) {i : InstrId} (hi : next ≤ i) : current ≠ some i :=
  fun hcurrent => Nat.not_lt.mpr hi (h i hcurrent)

/-- Control comes to what follows a piece of code from before that. -/
theorem out (h : ComesBefore current next) (c : Code) :
    ComesBefore (c.out current next) (next + c.size) := by
  intro i hi
  rcases Code.out_cases hi with hi | hi
  · exact Nat.lt_of_lt_of_le (h i hi) (Nat.le_add_right _ _)
  · exact hi.2

theorem source_lt (h : ComesBefore current next) {c : Code} {ends : Option LoopEnds}
    {a b : InstrId} (hedge : (a, b) ∈ c.edges ends current next) : a < next + c.size := by
  rcases Code.edges_source hedge with ha | ha
  · exact Nat.lt_of_lt_of_le (h a ha) (Nat.le_add_right _ _)
  · exact ha.2

end ComesBefore

/-- Edges of a piece of code lead to one of its instructions or to where one can leave for. -/
theorem Code.edges_target {c : Code} {ends : Option LoopEnds} {current : Option InstrId}
    {next a b : InstrId} (h : (a, b) ∈ c.edges ends current next) :
    (next ≤ b ∧ b < next + c.size) ∨ ∃ way : Leave, way.target? ends = some b := by
  induction c generalizing ends current next with
  | skip => cases h
  | seq first second ihf ihs =>
      rw [size_seq]
      rcases mem_edges_seq.mp h with h | h
      · rcases ihf h with h | h
        · lia
        · exact .inr h
      · rcases ihs h with h | h
        · lia
        · exact .inr h
  | step op element =>
      have hb := (mem_edges_step.mp h).2
      rw [size_step]
      lia
  | value node code ih => exact ih h
  | leave element way =>
      rcases mem_edges_leave.mp h with ⟨-, h⟩ | ⟨-, h⟩
      · rw [size_leave]
        lia
      · exact .inr ⟨way, h⟩
  | branch element yes no ihy ihn =>
      rw [size_branch]
      rcases mem_edges_branch.mp h with h | h | ⟨-, h⟩ | ⟨-, h⟩
      · rcases ihy h with h | h
        · lia
        · exact .inr h
      · rcases ihn h with h | h
        · lia
        · exact .inr h
      · lia
      · lia
  | loop element condition body ihc ihb =>
      rw [size_loop]
      rcases mem_edges_loop.mp h with ⟨-, h⟩ | h | ⟨-, h⟩ | h | ⟨-, h⟩
      · lia
      · rcases ihc h with h | h
        · lia
        · exact .inr h
      · lia
      · rcases ihb h with h | ⟨way, h⟩
        · lia
        · -- a break or a continue of the body stays in the loop; the others leave it as well
          cases way with
          | returns => exact .inr ⟨.returns, h⟩
          | throws => exact .inr ⟨.throws, h⟩
          | breaks =>
              have hb : next + 1 + condition.size = b := Option.some.inj h
              lia
          | continues =>
              have hb : next = b := Option.some.inj h
              lia
      · lia

/-! ## What a step adds -/

namespace Flow

/-- What the instructions of a graph do and stem from. -/
def labels (f : Flow) : List (Op × Option NodeId) := f.instrs.toList.map fun i => (i.op, i.element)

@[simp] theorem length_labels (f : Flow) : f.labels.length = f.size := by simp [labels, size]

theorem getElem?_labels (f : Flow) (i : InstrId) :
    f.labels[i]? = if i < f.size then some ((f.instr i).op, (f.instr i).element) else none := by
  by_cases h : i < f.size
  · have h' : i < f.instrs.size := h
    simp [labels, instr, h, h', Array.getD_eq_getD_getElem?]
  · have h' : f.instrs.size ≤ i := Nat.le_of_not_lt h
    simp [labels, h, h']

theorem instr_of_label {f : Flow} {i : InstrId} {op : Op} {e : Option NodeId}
    (h : f.labels[i]? = some (op, e)) : (f.instr i).op = op ∧ (f.instr i).element = e := by
  rw [getElem?_labels] at h
  exact Prod.mk.inj (Option.some.inj (Option.ite_none_right_eq_some.mp h).2)

/-- The instructions that edges lead from to the given one. -/
def arrivals (es : List Edge) (i : InstrId) : List InstrId := (es.filter (·.2 = i)).map (·.1)

/-- The instructions that edges lead to from the given one. -/
def departures (es : List Edge) (i : InstrId) : List InstrId := (es.filter (·.1 = i)).map (·.2)

theorem mem_arrivals {es : List Edge} {i a : InstrId} : a ∈ arrivals es i ↔ (a, i) ∈ es := by
  simp [arrivals]

theorem mem_departures {es : List Edge} {i b : InstrId} : b ∈ departures es i ↔ (i, b) ∈ es := by
  simp [departures]

theorem mem_foldl_addOnce {xs ys : List InstrId} {x : InstrId} :
    x ∈ ys.foldl addOnce xs ↔ x ∈ xs ∨ x ∈ ys := by
  induction ys generalizing xs with
  | nil => simp
  | cons y ys ih => rw [List.foldl_cons, ih, mem_addOnce, List.mem_cons, or_assoc]

/-- A graph that has come from another one by adding instructions and edges. -/
structure Gains (f g : Flow) (ns : List (Op × NodeId)) (es : List Edge) : Prop where
  labels : g.labels = f.labels ++ ns.map fun n => (n.1, some n.2)
  preds : ∀ i, g.preds i = (arrivals es i).foldl addOnce (f.preds i)
  succs : ∀ i, g.succs i = (departures es i).foldl addOnce (f.succs i)

theorem Gains.size {f g : Flow} {ns : List (Op × NodeId)} {es : List Edge} (h : f.Gains g ns es) :
    g.size = f.size + ns.length := by
  have := congrArg List.length h.labels
  simpa using this

theorem Gains.refl (f : Flow) : f.Gains f [] [] where
  labels := by simp
  preds := fun _ => rfl
  succs := fun _ => rfl

theorem Gains.trans {f g k : Flow} {ns ms : List (Op × NodeId)} {es ds : List Edge}
    (h₁ : f.Gains g ns es) (h₂ : g.Gains k ms ds) : f.Gains k (ns ++ ms) (es ++ ds) where
  labels := by rw [h₂.labels, h₁.labels, List.append_assoc, List.map_append]
  preds := by
    intro i
    rw [h₂.preds, h₁.preds, ← List.foldl_append]
    simp [arrivals]
  succs := by
    intro i
    rw [h₂.succs, h₁.succs, ← List.foldl_append]
    simp [departures]

theorem gains_push (f : Flow) (op : Op) (element : NodeId) :
    f.Gains (f.push op (some element)) [(op, element)] [] where
  labels := by simp [Flow.labels, push]
  preds := by simp [arrivals]
  succs := by simp [departures]

theorem gains_connect (f : Flow) (start stop : InstrId) (hs : start < f.size)
    (ht : stop < f.size) : f.Gains (f.connect start stop) [] [(start, stop)] where
  labels := by
    refine List.ext_getElem? fun i => ?_
    rw [List.map_nil, List.append_nil, getElem?_labels, getElem?_labels]
    simp
  preds := by
    intro i
    rw [preds_connect f ht]
    by_cases hi : i = stop
    · simp [arrivals, hi]
    · simp [arrivals, hi, Ne.symm hi]
  succs := by
    intro i
    rw [succs_connect f hs]
    by_cases hi : i = start
    · simp [departures, hi]
    · simp [departures, hi, Ne.symm hi]

end Flow

/-! ## What lowering adds -/

namespace Lowering

/-- Whether control falls through from an instruction that is there. -/
def Ready (l : Lowering) : Prop := ∀ i, l.current = some i → i < l.next

/-- A lowering that has come from another one by adding instructions and edges, with the place
from which control falls through. -/
structure Extends (l m : Lowering) (ns : List (Op × NodeId)) (es : List Edge)
    (current : Option InstrId) : Prop where
  gains : l.flow.Gains m.flow ns es
  current_eq : m.current = current
  ready : m.Ready

variable {l m k : Lowering} {ns ms : List (Op × NodeId)} {es ds : List Edge}
  {current current' : Option InstrId}

theorem Extends.next_eq (h : l.Extends m ns es current) : m.next = l.next + ns.length :=
  h.gains.size

theorem Extends.trans (h₁ : l.Extends m ns es current) (h₂ : m.Extends k ms ds current') :
    l.Extends k (ns ++ ms) (es ++ ds) current' :=
  ⟨h₁.gains.trans h₂.gains, h₂.current_eq, h₂.ready⟩

theorem Ready.refl (hl : l.Ready) : l.Extends l [] [] l.current :=
  ⟨Flow.Gains.refl _, rfl, hl⟩

theorem Ready.link (hl : l.Ready) (start : Option InstrId) (stop : InstrId)
    (hs : ∀ i, start = some i → i < l.next) (ht : stop < l.next) :
    l.Extends (l.link start stop) [] (edgeFrom start stop) l.current := by
  cases start with
  | none => exact hl.refl
  | some s =>
      refine ⟨l.flow.gains_connect s stop (hs s rfl) ht, rfl, ?_⟩
      intro i hi
      simpa [Lowering.link, next] using hl i hi

/-- Letting control fall through from elsewhere adds nothing. -/
theorem resumeAt_extends (l : Lowering) (current : Option InstrId)
    (hc : ∀ i, current = some i → i < l.next) :
    l.Extends (l.resumeAt current) [] [] current :=
  ⟨Flow.Gains.refl _, rfl, hc⟩

/-- A new instruction with an edge to it. -/
theorem Ready.placeLinked (hl : l.Ready) (op : Op) (element : NodeId) {start : Option InstrId}
    (hs : ∀ i, start = some i → i < l.next) :
    l.Extends ((l.place op element).link start l.next) [(op, element)] (edgeFrom start l.next)
      l.current := by
  have hn : (l.place op element).next = l.next + 1 := Flow.size_push ..
  have h₁ : l.Extends (l.place op element) [(op, element)] [] l.current :=
    ⟨l.flow.gains_push op element, rfl, fun i hi => by have := hl i hi; lia⟩
  exact h₁.trans (h₁.ready.link start l.next (fun i hi => by have := hs i hi; lia) (by lia))

theorem Ready.goTo (hl : l.Ready) (target : InstrId) (ht : target < l.next) :
    l.Extends (l.goTo target) [] (edgeFrom l.current target) none where
  gains := (hl.link l.current target hl ht).gains
  current_eq := rfl
  ready := nofun

theorem Ready.perform (hl : l.Ready) (op : Op) (element : NodeId) :
    l.Extends (l.perform op element) [(op, element)] (edgeFrom l.current l.next)
      (some l.next) := by
  have h := hl.placeLinked op element hl
  refine ⟨h.gains, rfl, ?_⟩
  intro i hi
  cases hi
  have hn : (l.perform op element).next = l.next + 1 := h.next_eq
  lia

theorem Ready.record (hl : l.Ready) (node : NodeId) :
    l.Extends (l.record node) [] [] l.current := by
  unfold Lowering.record
  split
  · exact ⟨⟨by simp [Flow.labels, Flow.noteValue], fun _ => rfl, fun _ => rfl⟩, rfl, hl⟩
  · exact hl.refl

/-- The point where the two branches of a conditional come together. -/
theorem Ready.join (hl : l.Ready) (element : NodeId) {a b : Option InstrId}
    (ha : ∀ i, a = some i → i < l.next) (hb : ∀ i, b = some i → i < l.next) :
    l.Extends ((((l.place .jump element).link a l.next).link b l.next).resumeAt (some l.next))
      [(.jump, element)] (edgeFrom a l.next ++ edgeFrom b l.next) (some l.next) := by
  have h₁ := hl.placeLinked .jump element ha
  have n₁ : ((l.place .jump element).link a l.next).next = l.next + 1 := h₁.next_eq
  have h₂ := h₁.trans (h₁.ready.link b l.next (fun i hi => by have := hb i hi; lia)
    (show l.next < _ by lia))
  refine ⟨h₂.gains, rfl, ?_⟩
  intro i hi
  cases hi
  have n₂ : (((l.place .jump element).link a l.next).link b l.next).next = l.next + 1 := h₂.next_eq
  exact n₂ ▸ Nat.lt_succ_self _

/-- The start of a loop. -/
theorem Ready.enterLoop (hl : l.Ready) (element : NodeId) :
    l.Extends (((l.place .jump element).goTo l.next).resumeAt (some l.next))
      [(.jump, element)] (edgeFrom l.current l.next) (some l.next) := by
  have h := hl.placeLinked .jump element hl
  refine ⟨h.gains, rfl, ?_⟩
  intro i hi
  cases hi
  have hn : ((l.place .jump element).link l.current l.next).next = l.next + 1 := h.next_eq
  exact hn ▸ Nat.lt_succ_self _

/-- The end of a loop: back to its start, and on from the place after it. -/
theorem Ready.leaveLoop (hl : l.Ready) (again done : InstrId) (ha : again < l.next)
    (hd : done < l.next) :
    l.Extends ((l.goTo again).resumeAt (some done)) [] (edgeFrom l.current again) (some done) := by
  have h := hl.goTo again ha
  refine ⟨h.gains, rfl, ?_⟩
  intro i hi
  cases hi
  have hn : (l.goTo again).next = l.next := h.next_eq
  exact hn.symm ▸ hd

end Lowering

/-- Whether the ends of the loop around, if there is one, are there. -/
def LoopEnds.Within (ends : Option LoopEnds) (next : InstrId) : Prop :=
  ∀ e, ends = some e → e.again < next ∧ e.done < next

theorem LoopEnds.within_none (next : InstrId) : LoopEnds.Within none next := by
  intro e he
  cases he

theorem LoopEnds.Within.mono {ends : Option LoopEnds} {next next' : InstrId}
    (h : LoopEnds.Within ends next) (hle : next ≤ next') : LoopEnds.Within ends next' := by
  intro e he
  have := h e he
  lia

/-- A statement that leaves goes to an instruction that is there. -/
theorem Leave.target?_lt {way : Leave} {ends : Option LoopEnds} {next target : InstrId}
    (he : LoopEnds.Within ends next) (h3 : 3 ≤ next) (h : way.target? ends = some target) :
    target < next := by
  cases way with
  | returns => cases h; exact Nat.lt_of_lt_of_le (by decide) h3
  | throws => cases h; exact Nat.lt_of_lt_of_le (by decide) h3
  | breaks =>
      obtain ⟨e, rfl, rfl⟩ := Option.map_eq_some_iff.mp h
      exact (he e rfl).2
  | continues =>
      obtain ⟨e, rfl, rfl⟩ := Option.map_eq_some_iff.mp h
      exact (he e rfl).1

/-- **Lowering adds the instructions and the edges of the code**, and control falls through
where the code says. -/
theorem Code.lower_extends (c : Code) (ends : Option LoopEnds) (l : Lowering) (hl : l.Ready)
    (he : LoopEnds.Within ends l.next) (h3 : 3 ≤ l.next) :
    l.Extends (c.lower ends l) c.nodes (c.edges ends l.current l.next)
      (c.out l.current l.next) := by
  -- Each case chains what its steps add; `hₙ` says what the steps so far add and `nₙ` which number
  -- comes next. The three bounds are what makes every edge lead to an instruction that is there.
  induction c generalizing ends l with
  | skip => exact hl.refl
  | seq first second ihf ihs =>
      have h₁ := ihf ends l hl he h3
      have hn : (first.lower ends l).next = l.next + first.size := h₁.next_eq
      have h₂ := ihs ends _ h₁.ready (he.mono (by lia)) (by lia)
      rw [h₁.current_eq, hn] at h₂
      exact h₁.trans h₂
  | step op element => exact hl.perform op element
  | value node code ih =>
      have h₁ := ih ends l hl he h3
      have h₂ := h₁.trans (h₁.ready.record node)
      rw [h₁.current_eq, List.append_nil, List.append_nil] at h₂
      exact h₂
  | leave element way =>
      have h₁ := hl.perform .jump element
      have hn : (l.perform .jump element).next = l.next + 1 := h₁.next_eq
      cases ht : way.target? ends with
      | none =>
          have h₂ := h₁.trans (Lowering.resumeAt_extends _ none nofun)
          simpa [lower, edges, ht, out, nodes] using h₂
      | some target =>
          have hlt : target < l.next := Leave.target?_lt he h3 ht
          have h₂ := h₁.trans (h₁.ready.goTo target (by lia))
          rw [h₁.current_eq] at h₂
          simpa [lower, edges, ht, out, nodes, edgeFrom] using h₂
  | branch element yes no ihy ihn =>
      have h₁ := ihy ends l hl he h3
      have n₁ : (yes.lower ends l).next = l.next + yes.size := h₁.next_eq
      -- the second branch starts where the first one did
      have h₂ := (yes.lower ends l).resumeAt_extends l.current
        (fun i hi => by have := hl i hi; lia)
      have n₂ : ((yes.lower ends l).resumeAt l.current).next = l.next + yes.size := n₁
      have h₃ := ihn ends _ h₂.ready (he.mono (by lia)) (by lia)
      rw [n₂, h₂.current_eq] at h₃
      have n₃ : (no.lower ends ((yes.lower ends l).resumeAt l.current)).next
          = l.next + yes.size + no.size := n₂ ▸ h₃.next_eq
      have h₄ := h₃.ready.join element (a := (yes.lower ends l).current)
        (fun i hi => by have := h₁.ready i hi; lia) h₃.ready
      have h := h₁.trans (h₂.trans (h₃.trans h₄))
      rw [h₁.current_eq, h₃.current_eq, n₃] at h
      simpa [lower, edges, nodes, out, h₁.current_eq, h₃.current_eq, n₃] using h
  | loop element condition body ihc ihb =>
      have h₁ := hl.enterLoop element
      set atStart := ((l.place .jump element).goTo l.next).resumeAt (some l.next)
      have n₁ : atStart.next = l.next + 1 := h₁.next_eq
      have h₂ := ihc ends atStart h₁.ready (he.mono (by lia)) (by lia)
      rw [h₁.current_eq, n₁] at h₂
      set tested := condition.lower ends atStart
      have n₂ : tested.next = l.next + 1 + condition.size := n₁ ▸ h₂.next_eq
      have h₃ := h₂.ready.placeLinked .jump element h₂.ready
      set inside := (tested.place .jump element).link tested.current tested.next
      have n₃ : inside.next = tested.next + 1 := h₃.next_eq
      -- the place after the loop is made before the body, so that a break has where to go
      have h₄ := ihb (some { again := l.next, done := tested.next }) inside h₃.ready
        (by intro e he'; cases he'; constructor <;> lia) (by lia)
      rw [h₃.current_eq, n₃] at h₄
      set finished := body.lower (some { again := l.next, done := tested.next }) inside
      have n₄ : finished.next = tested.next + 1 + body.size := n₃ ▸ h₄.next_eq
      have h₅ := h₄.ready.leaveLoop l.next tested.next (by lia) (by lia)
      have h := h₁.trans (h₂.trans (h₃.trans (h₄.trans h₅)))
      rw [h₄.current_eq, h₂.current_eq] at h
      have hlower : (Code.loop element condition body).lower ends l
          = (finished.goTo l.next).resumeAt (some tested.next) := rfl
      rw [hlower]
      simpa [edges, nodes, out, ← n₂] using h

/-! ## The graph of a body -/

namespace Code

/-- The number of the sink in the graph of a body. -/
def sinkId (c : Code) : InstrId := 3 + c.size

/-- The edges of the graph of a body, in order. -/
def flowEdges (c : Code) : List Edge :=
  c.edges none (some entryId) 3 ++ edgeFrom (c.out (some entryId) 3) exitId ++
    [(exitId, c.sinkId), (failureId, c.sinkId)]

theorem mem_flowEdges {c : Code} {a b : InstrId} : (a, b) ∈ c.flowEdges ↔
    (a, b) ∈ c.edges none (some entryId) 3 ∨ (c.out (some entryId) 3 = some a ∧ b = exitId) ∨
      (a = exitId ∧ b = c.sinkId) ∨ (a = failureId ∧ b = c.sinkId) := by
  simp only [flowEdges, List.mem_append, mem_edgeFrom, List.mem_cons, Prod.mk.injEq,
    List.not_mem_nil, or_false, or_assoc]

theorem flowEdges_lt {c : Code} {a b : InstrId} (h : (a, b) ∈ c.flowEdges) :
    a < c.sinkId ∧ b ≤ c.sinkId := by
  have h0 : entryId = 0 := rfl
  have h1 : exitId = 1 := rfl
  have h2 : failureId = 2 := rfl
  have hs : c.sinkId = 3 + c.size := rfl
  rcases mem_flowEdges.mp h with h | ⟨h, hb⟩ | ⟨ha, hb⟩ | ⟨ha, hb⟩
  · have hsrc : a < c.sinkId := by
      rcases edges_source h with h | h
      · cases h
        lia
      · lia
    refine ⟨hsrc, ?_⟩
    rcases edges_target h with h | ⟨way, h⟩
    · lia
    · have := Leave.target?_lt (LoopEnds.within_none 3) (Nat.le_refl 3) h
      lia
  · rcases out_cases h with h | h
    · cases h
      lia
    · lia
  · lia
  · lia

/-- What the instructions of the graph of a body do and stem from. -/
def flowLabels (c : Code) (owner : NodeId) : List (Op × Option NodeId) :=
  [(.enter, some owner), (.exit false, some owner), (.exit true, some owner)] ++
    c.nodes.map (fun n => (n.1, some n.2)) ++ [(.sink, none)]

end Code

theorem Lowering.ready_start (owner : NodeId) : (Lowering.start owner).Ready := by
  intro i hi
  cases hi
  show (0 : Nat) < 3
  decide

/-- The graph of a body before the exits are linked to the sink. -/
theorem Code.gains_start (c : Code) (owner : NodeId) :
    (Lowering.start owner).flow.Gains
      ((c.lower none (Lowering.start owner)).goTo exitId).flow c.nodes
      (c.edges none (some entryId) 3 ++ edgeFrom (c.out (some entryId) 3) exitId) := by
  have h₁ := c.lower_extends none (Lowering.start owner) (Lowering.ready_start owner)
    (LoopEnds.within_none _) (Nat.le_refl 3)
  have hn : (c.lower none (Lowering.start owner)).next = 3 + c.size := h₁.next_eq
  have h₂ := h₁.trans (h₁.ready.goTo exitId (by
    have h1 : exitId = 1 := rfl
    lia))
  rw [h₁.current_eq, List.append_nil] at h₂
  exact h₂.gains

namespace Code

variable (c : Code) (owner : NodeId)

/-- The graph of a body before it is completed. -/
def openFlow : Flow :=
  let body := ((c.lower none (Lowering.start owner)).goTo exitId).flow
  ((body.push .sink none).connect exitId body.size).connect failureId body.size

theorem size_body : ((c.lower none (Lowering.start owner)).goTo exitId).flow.size = c.sinkId :=
  (c.gains_start owner).size

theorem flow_eq_complete : c.flow owner = (c.openFlow owner).complete entryId c.sinkId := by
  rw [← c.size_body owner]
  rfl

/-- The two edges to the sink are added last. -/
theorem gains_sink :
    (((c.lower none (Lowering.start owner)).goTo exitId).flow.push .sink none).Gains
      (c.openFlow owner) [] [(exitId, c.sinkId), (failureId, c.sinkId)] := by
  set body := ((c.lower none (Lowering.start owner)).goTo exitId).flow with hbody
  have hn : body.size = c.sinkId := c.size_body owner
  have hs : c.sinkId = 3 + c.size := rfl
  have h1 : exitId = 1 := rfl
  have h2 : failureId = 2 := rfl
  have hp : (body.push .sink none).size = c.sinkId + 1 := by rw [Flow.size_push, hn]
  have h₁ := (body.push .sink none).gains_connect exitId c.sinkId (by lia) (by lia)
  have h₂ := ((body.push .sink none).connect exitId c.sinkId).gains_connect failureId
    c.sinkId (by rw [Flow.size_connect]; lia) (by rw [Flow.size_connect]; lia)
  have h := h₁.trans h₂
  rw [← hn] at h ⊢
  exact h

@[simp] theorem entry_flow : (c.flow owner).entry = entryId := rfl

@[simp] theorem sink_flow : (c.flow owner).sink = c.sinkId := c.size_body owner

@[simp] theorem size_flow : (c.flow owner).size = c.sinkId + 1 := by
  rw [flow_eq_complete, Flow.size_complete, (c.gains_sink owner).size, Flow.size_push, size_body]
  rfl

/-- The predecessors in the graph of a body, in the order of its edges. -/
theorem preds_flow (i : InstrId) :
    (c.flow owner).preds i = (Flow.arrivals c.flowEdges i).foldl Flow.addOnce [] := by
  have h : (Lowering.start owner).flow.preds i = [] := by
    simp only [Lowering.start, Flow.preds_push]
    simp [Flow.preds, Flow.instr]
  rw [flow_eq_complete, Flow.preds_complete, (c.gains_sink owner).preds, Flow.preds_push,
    (c.gains_start owner).preds, h, ← List.foldl_append]
  simp [flowEdges, Flow.arrivals]

theorem succs_flow (i : InstrId) :
    (c.flow owner).succs i = (Flow.departures c.flowEdges i).foldl Flow.addOnce [] := by
  have h : (Lowering.start owner).flow.succs i = [] := by
    simp only [Lowering.start, Flow.succs_push]
    simp [Flow.succs, Flow.instr]
  rw [flow_eq_complete, Flow.succs_complete, (c.gains_sink owner).succs, Flow.succs_push,
    (c.gains_start owner).succs, h, ← List.foldl_append]
  simp [flowEdges, Flow.departures]

theorem mem_preds_flow {a b : InstrId} :
    a ∈ (c.flow owner).preds b ↔ (a, b) ∈ c.flowEdges := by
  rw [preds_flow, Flow.mem_foldl_addOnce, Flow.mem_arrivals]
  simp

theorem mem_succs_flow {a b : InstrId} :
    b ∈ (c.flow owner).succs a ↔ (a, b) ∈ c.flowEdges := by
  rw [succs_flow, Flow.mem_foldl_addOnce, Flow.mem_departures]
  simp

theorem linked_flow : (c.flow owner).Linked where
  mem_iff := by
    intro a b
    rw [mem_succs_flow, mem_preds_flow]
  lt_size := by
    intro a b h
    rw [mem_preds_flow] at h
    have := flowEdges_lt h
    rw [size_flow]
    lia

/-- In the graph of a body exactly what the entry does not lead to is dead. -/
theorem dead_flow_iff {i : InstrId} (hi : i ≤ c.sinkId) :
    ((c.flow owner).instr i).dead = true ↔ ¬ (c.flow owner).Reaches entryId i := by
  have hl := c.linked_flow owner
  have hn := c.size_flow owner
  rw [flow_eq_complete] at hl hn ⊢
  -- completing marks instructions and leaves the edges alone
  have hopen : (c.openFlow owner).Linked :=
    ⟨by simpa using @hl.mem_iff, by simpa using @hl.lt_size⟩
  rw [Flow.size_complete] at hn
  rw [Flow.dead_complete_iff hopen (by rw [hn]; exact Nat.succ_pos _) (by rw [hn]; lia)]
  unfold Flow.Reaches
  simp only [Flow.Path.complete_iff]

theorem labels_flow : (c.flow owner).labels = c.flowLabels owner := by
  have hc : (c.flow owner).labels = (c.openFlow owner).labels := by
    refine List.ext_getElem? fun i => ?_
    rw [flow_eq_complete, Flow.getElem?_labels, Flow.getElem?_labels]
    simp
  have hpush : ∀ f : Flow, (f.push .sink none).labels = f.labels ++ [(.sink, none)] := by
    intro f
    simp [Flow.labels, Flow.push]
  rw [hc, (c.gains_sink owner).labels, hpush, (c.gains_start owner).labels]
  simp [flowLabels, Lowering.start, Flow.labels, Flow.push]

theorem isFailure_failure : ((c.flow owner).instr failureId).isFailure = true := by
  have hop : ((c.flow owner).instr failureId).op = .exit true :=
    (Flow.instr_of_label (by rw [labels_flow]; rfl)).1
  simp [Instr.isFailure, hop]

/-- The exit for failure is never looked at. -/
theorem eligible_failure : (c.flow owner).eligible failureId = false := by
  simp [Flow.eligible, isFailure_failure]

end Code

end ComponentAudit
