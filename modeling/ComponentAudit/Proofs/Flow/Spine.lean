import ComponentAudit.Proofs.Flow.Lowered

set_option autoImplicit false

/-! # The spine of a body

A walk back from the end of a body meets its instructions in an order that the edges fix. The
instructions outside of the bodies of loops form the spine of the graph: each of them is met from
above. The condition of a loop is met from its end, which guards it. The body of a loop is met
after the end of the condition as well, which is its gate, or else from the exit, by way of a
return in the body. Then the gate is still to come, but nothing below it is pending.

This holds as long as no condition of a loop can be left by a return, because the exit then leads
back into the middle of the condition.

Main definition: `Code.flowSpine`, the spine of the graph of a body. What a spine is good for is
said in the definition of `Flow.Spine`.
-/

namespace ComponentAudit

namespace Flow

/-- Whether a path from the entry leads to an instruction, without the exit for failure and
without the instructions that are shut. -/
def Arrives (f : Flow) (shut : InstrId → Prop) (p : List InstrId) (i : InstrId) : Prop :=
  f.Path f.entry p i ∧ ∀ j ∈ p, (f.instr j).isFailure = false ∧ ¬ shut j

/-- Instructions on which a walk back from the root can be trusted, as far as paths without the
instructions that are shut are concerned. -/
structure Spine (f : Flow) (shut : InstrId → Prop) (root : InstrId) where
  /-- The instructions on the spine. -/
  on : InstrId → Prop
  rank : InstrId → Nat
  /-- A guard is met before what it guards. -/
  guards : InstrId → InstrId → Prop
  /-- A gate is met before what lies behind it, or nothing below it is pending. -/
  gates : InstrId → InstrId → Prop
  root_free : ∀ g, ¬ guards g root
  /-- What leads to something guarded is guarded as well, or is the guard. -/
  guards_step : ∀ {g u v : InstrId}, guards g u → f.eligible v = true ∨ v = root →
    u ∈ f.preds v → guards g v ∨ v = g
  off_of_gates : ∀ {g u : InstrId}, gates g u → ¬ on u
  /-- What leads to something behind a gate is behind it as well, or is guarded by it, or comes
  after it, or is higher. -/
  gates_step : ∀ {g u v : InstrId} {before behind : List InstrId}, gates g u →
    f.eligible v = true ∨ v = root → f.preds v = before ++ u :: behind →
    gates g v ∨ guards g v ∨ v = g ∨ g ∈ before ∨ on v ∧ rank g < rank v
  /-- The spine is reached from above, from what is guarded or from behind a gate. -/
  on_step : ∀ {u v : InstrId}, on u → u ∈ f.preds v → f.eligible v = true ∨ v = root →
    (on v ∧ rank u < rank v) ∨ guards u v ∨ gates u v ∨ v = u
  /-- Every path to an instruction on the spine passes a lower predecessor of it. -/
  passes : ∀ {u v : InstrId} {p : List InstrId}, on v → u ∈ f.preds v → f.Arrives shut p u →
    ∃ d ∈ p, on d ∧ rank d < rank v ∧ d ∈ f.preds v
  entry_preds : f.preds f.entry = []
  live : ∀ {p : List InstrId} {i : InstrId}, f.Path f.entry p i → (f.instr i).dead = false

end Flow

/-! ## What comes first in a list -/

/-- Whether something occurs in a list, and nothing of the second kind before it. -/
def Precedes {α : Type} (x y : α) (l : List α) : Prop := ∃ l₁ l₂, l = l₁ ++ x :: l₂ ∧ y ∉ l₁

theorem Precedes.append {α : Type} {x y : α} {l : List α} (h : Precedes x y l) (r : List α) :
    Precedes x y (l ++ r) := by
  obtain ⟨l₁, l₂, rfl, hy⟩ := h
  exact ⟨l₁, l₂ ++ r, by simp, hy⟩

theorem Precedes.prepend {α : Type} {x y : α} {l r : List α} (h : Precedes x y r) (hy : y ∉ l) :
    Precedes x y (l ++ r) := by
  obtain ⟨l₁, l₂, rfl, hy'⟩ := h
  exact ⟨l ++ l₁, l₂, by simp, by simp [hy, hy']⟩

/-! ## Spine and guards of a piece of code -/

namespace Code

/-- The returns of a piece of code. -/
def returnAt : Code → InstrId → InstrId → Prop
  | .leave _ way, next, i => way = .returns ∧ i = next
  | .seq a b, next, i | .branch _ a b, next, i =>
    a.returnAt next i ∨ b.returnAt (next + a.size) i
  | .value _ c, next, i => c.returnAt next i
  | .loop _ c b, next, i => c.returnAt (next + 1) i ∨ b.returnAt (next + 1 + c.size + 1) i
  | _, _, _ => False

/-- The returns of a piece of code that lie in a loop. -/
def loopReturnAt : Code → InstrId → InstrId → Prop
  | .seq a b, next, i | .branch _ a b, next, i =>
    a.loopReturnAt next i ∨ b.loopReturnAt (next + a.size) i
  | .value _ c, next, i => c.loopReturnAt next i
  | .loop _ c b, next, i => c.returnAt (next + 1) i ∨ b.returnAt (next + 1 + c.size + 1) i
  | _, _, _ => False

instance decidableReturnAt : (c : Code) → (next i : InstrId) → Decidable (c.returnAt next i)
  | .leave _ _, _, _ => inferInstanceAs (Decidable (_ ∧ _))
  | .seq a b, next, i | .branch _ a b, next, i =>
    have := decidableReturnAt a next i
    have := decidableReturnAt b (next + a.size) i
    inferInstanceAs (Decidable (_ ∨ _))
  | .value _ c, next, i => decidableReturnAt c next i
  | .loop _ c b, next, i =>
    have := decidableReturnAt c (next + 1) i
    have := decidableReturnAt b (next + 1 + c.size + 1) i
    inferInstanceAs (Decidable (_ ∨ _))
  | .skip, _, _ | .step _ _, _, _ => isFalse id

instance decidableLoopReturnAt :
    (c : Code) → (next i : InstrId) → Decidable (c.loopReturnAt next i)
  | .seq a b, next, i | .branch _ a b, next, i =>
    have := decidableLoopReturnAt a next i
    have := decidableLoopReturnAt b (next + a.size) i
    inferInstanceAs (Decidable (_ ∨ _))
  | .value _ c, next, i => decidableLoopReturnAt c next i
  | .loop _ c b, next, i =>
    inferInstanceAs (Decidable (c.returnAt (next + 1) i ∨ b.returnAt (next + 1 + c.size + 1) i))
  | .skip, _, _ | .step _ _, _, _ | .leave _ _, _, _ => isFalse id

/-- Whether a piece of code has a return. -/
def returns : Code → Bool
  | .leave _ way => way = .returns
  | .seq a b | .branch _ a b | .loop _ a b => a.returns || b.returns
  | .value _ c => c.returns
  | _ => false

/-- Whether no condition of a loop has a return. Loops in the body of a loop do not count. -/
def testsHold : Code → Bool
  | .seq a b | .branch _ a b => a.testsHold && b.testsHold
  | .value _ c => c.testsHold
  | .loop _ c _ => !c.returns
  | _ => true

/-- The instructions of a piece of code that are not in the body of a loop. -/
def spine : Code → InstrId → InstrId → Prop
  | .skip, _, _ => False
  | .seq a b, next, i => a.spine next i ∨ b.spine (next + a.size) i
  | .step _ _, next, i | .leave _ _, next, i => i = next
  | .value _ c, next, i => c.spine next i
  | .branch _ a b, next, i =>
    a.spine next i ∨ b.spine (next + a.size) i ∨ i = next + a.size + b.size
  | .loop _ c _, next, i => i = next ∨ c.spine (next + 1) i ∨ i = next + 1 + c.size

/-- The end of the condition of a loop guards the rest of the condition. -/
def guards : Code → InstrId → InstrId → InstrId → Prop
  | .seq a b, next, g, u | .branch _ a b, next, g, u =>
    a.guards next g u ∨ b.guards (next + a.size) g u
  | .value _ c, next, g, u => c.guards next g u
  | .loop _ c _, next, g, u =>
    (c.out (some next) (next + 1) = some g ∧ u ≠ g ∧ next ≤ u ∧ u < next + 1 + c.size) ∨
      c.guards (next + 1) g u
  | _, _, _, _ => False

/-- The end of the condition of a loop is the gate of the body. -/
def gates : Code → InstrId → InstrId → InstrId → Prop
  | .seq a b, next, g, u | .branch _ a b, next, g, u =>
    a.gates next g u ∨ b.gates (next + a.size) g u
  | .value _ c, next, g, u => c.gates next g u
  | .loop _ c b, next, g, u =>
    (c.out (some next) (next + 1) = some g ∧ next + 1 + c.size < u ∧
      u < next + 1 + c.size + 1 + b.size) ∨ c.gates (next + 1) g u
  | _, _, _, _ => False

theorem returns_of_returnAt {c : Code} {next i : InstrId} (h : c.returnAt next i) :
    c.returns = true := by
  induction c generalizing next with
  | skip | step => exact h.elim
  | seq a b iha ihb | branch e a b iha ihb | loop e a b iha ihb =>
      rw [returns, Bool.or_eq_true]
      rcases h with h | h
      · exact .inl (iha h)
      · exact .inr (ihb h)
  | value n c ih => exact ih h
  | leave e way => simpa [returns] using h.1

theorem testsHold_of_not_returns {c : Code} (h : c.returns = false) : c.testsHold = true := by
  induction c with
  | seq a b iha ihb | branch e a b iha ihb =>
      simp only [returns, Bool.or_eq_false_iff] at h
      simp [testsHold, iha h.1, ihb h.2]
  | value n c ih => exact ih h
  | loop e c b =>
      simp only [returns, Bool.or_eq_false_iff] at h
      simp [testsHold, h]
  | skip | step | leave => rfl

theorem spine_range {c : Code} {next i : InstrId} (h : c.spine next i) :
    next ≤ i ∧ i < next + c.size := by
  induction c generalizing next with
  | skip => exact h.elim
  | seq a b iha ihb =>
      rw [size_seq]
      rcases h with h | h
      · have := iha h
        lia
      · have := ihb h
        lia
  | step op e =>
      have hi : i = next := h
      rw [size_step]
      lia
  | leave e way =>
      have hi : i = next := h
      rw [size_leave]
      lia
  | value n c ih => exact ih h
  | branch e a b iha ihb =>
      rw [size_branch]
      rcases h with h | h | h
      · have := iha h
        lia
      · have := ihb h
        lia
      · lia
  | loop e c b ihc =>
      rw [size_loop]
      rcases h with h | h | h
      · lia
      · have := ihc h
        lia
      · lia

theorem guards_range {c : Code} {next g u : InstrId} (h : c.guards next g u) :
    next ≤ u ∧ u < next + c.size := by
  induction c generalizing next with
  | skip | step | leave => exact h.elim
  | seq a b iha ihb | branch e a b iha ihb =>
      simp only [size_seq, size_branch]
      rcases h with h | h
      · have := iha h
        lia
      · have := ihb h
        lia
  | value n c ih => exact ih h
  | loop e c b ihc =>
      rw [size_loop]
      rcases h with ⟨-, -, h⟩ | h
      · lia
      · have := ihc h
        lia

theorem gates_range {c : Code} {next g u : InstrId} (h : c.gates next g u) :
    next ≤ u ∧ u < next + c.size := by
  induction c generalizing next with
  | skip | step | leave => exact h.elim
  | seq a b iha ihb | branch e a b iha ihb =>
      simp only [size_seq, size_branch]
      rcases h with h | h
      · have := iha h
        lia
      · have := ihb h
        lia
  | value n c ih => exact ih h
  | loop e c b ihc =>
      rw [size_loop]
      rcases h with ⟨-, h⟩ | h
      · lia
      · have := ihc h
        lia

/-! ## The spines of the parts -/

section

variable {a b : Code} {e : NodeId} {next i : InstrId}

theorem spine_first (h : (seq a b).spine next i) (hi : i < next + a.size) : a.spine next i := by
  rcases h with h | h
  · exact h
  · have := spine_range h
    lia

theorem spine_second (h : (seq a b).spine next i) (hi : next + a.size ≤ i) :
    b.spine (next + a.size) i := by
  rcases h with h | h
  · have := spine_range h
    lia
  · exact h

theorem spine_yes (h : (branch e a b).spine next i) (hi : i < next + a.size) :
    a.spine next i := by
  rcases h with h | h | h
  · exact h
  · have := spine_range h
    lia
  · lia

theorem spine_no (h : (branch e a b).spine next i) (hi : next + a.size ≤ i)
    (hi' : i < next + a.size + b.size) : b.spine (next + a.size) i := by
  rcases h with h | h | h
  · have := spine_range h
    lia
  · exact h
  · lia

theorem spine_condition (h : (loop e a b).spine next i) (hi : next < i)
    (hi' : i < next + 1 + a.size) : a.spine (next + 1) i := by
  rcases h with h | h | h
  · lia
  · exact h
  · lia

/-- The body of a loop is not on the spine. -/
theorem not_spine_body (hi : next + 1 + a.size < i) : ¬ (loop e a b).spine next i := by
  rintro (h | h | h)
  · lia
  · have := spine_range h
    lia
  · lia

end

/-- What lies behind a gate is not on the spine. -/
theorem not_spine_of_gates {c : Code} {next g u : InstrId} (h : c.gates next g u) :
    ¬ c.spine next u := by
  induction c generalizing next with
  | skip | step | leave => exact h.elim
  | seq a b iha ihb =>
      intro hu
      rcases h with h | h
      · exact iha h (spine_first hu (gates_range h).2)
      · exact ihb h (spine_second hu (gates_range h).1)
  | value n c ih => exact ih h
  | branch e a b iha ihb =>
      intro hu
      rcases h with h | h
      · exact iha h (spine_yes hu (gates_range h).2)
      · exact ihb h (spine_no hu (gates_range h).1 (gates_range h).2)
  | loop e c b ihc =>
      intro hu
      rcases h with ⟨-, hr, -⟩ | h
      · exact not_spine_body hr hu
      · exact ihc h (spine_condition hu (gates_range h).1 (gates_range h).2)

/-! ## Where control falls through -/

/-- Control falls through on the spine. -/
theorem spine_of_out {c : Code} {current : Option InstrId} {next i : InstrId}
    (h : c.out current next = some i) : c.spine next i ∨ current = some i := by
  induction c generalizing current next with
  | skip => exact .inr h
  | seq a b iha ihb =>
      rcases ihb h with h | h
      · exact .inl (.inr h)
      · rcases iha h with h | h
        · exact .inl (.inl h)
        · exact .inr h
  | step op e => exact .inl (Option.some.inj h).symm
  | value n c ih => exact ih h
  | leave e way => cases h
  | branch e a b => exact .inl (.inr (.inr (Option.some.inj h).symm))
  | loop e c b => exact .inl (.inr (.inr (Option.some.inj h).symm))

/-- Where control falls through nothing is guarded. -/
theorem not_guards_of_out {c : Code} {current : Option InstrId} {next g i : InstrId}
    (hc : ComesBefore current next) (h : c.out current next = some i) : ¬ c.guards next g i := by
  induction c generalizing current next with
  | skip | step | leave => exact id
  | seq a b iha ihb =>
      have hb : b.out (a.out current next) (next + a.size) = some i := h
      rintro (hg | hg)
      · have hrange := guards_range hg
        rcases out_cases hb with ha | hi
        · exact iha hc ha hg
        · lia
      · exact ihb (hc.out a) hb hg
  | value n c ih => exact ih hc h
  | branch e a b =>
      have hi : next + a.size + b.size = i := Option.some.inj h
      rintro (hg | hg)
      · have := guards_range hg
        lia
      · have := guards_range hg
        lia
  | loop e c b =>
      have hi : next + 1 + c.size = i := Option.some.inj h
      rintro (⟨-, -, hg⟩ | hg)
      · lia
      · have := guards_range hg
        lia

/-- Where control falls through is not behind a gate. -/
theorem not_gates_of_out {c : Code} {current : Option InstrId} {next g i : InstrId}
    (hc : ComesBefore current next) (h : c.out current next = some i) : ¬ c.gates next g i := by
  intro hg
  rcases spine_of_out h with h | h
  · exact not_spine_of_gates hg h
  · exact hc.ne (gates_range hg).1 h

/-! ## Where edges lead -/

/-- Edges from before a piece of code lead to its instructions. -/
theorem edges_from_before {c : Code} {ends : Option LoopEnds} {current : Option InstrId}
    {next u v : InstrId} (h : (u, v) ∈ c.edges ends current next) (hu : u < next) :
    next ≤ v ∧ v < next + c.size := by
  induction c generalizing ends current next with
  | skip => cases h
  | seq a b iha ihb =>
      rw [size_seq]
      rcases mem_edges_seq.mp h with h | h
      · have := iha h hu
        lia
      · have := ihb h (by lia)
        lia
  | step op e =>
      have hv := (mem_edges_step.mp h).2
      rw [size_step]
      lia
  | value n c ih => exact ih h hu
  | leave e way =>
      rcases mem_edges_leave.mp h with ⟨-, hv⟩ | ⟨hu', -⟩
      · rw [size_leave]
        lia
      · lia
  | branch e a b iha ihb =>
      rw [size_branch]
      rcases mem_edges_branch.mp h with h | h | ⟨-, h⟩ | ⟨-, h⟩
      · have := iha h hu
        lia
      · have := ihb h (by lia)
        lia
      · lia
      · lia
  | loop e c b ihc ihb =>
      rw [size_loop]
      rcases mem_edges_loop.mp h with ⟨-, h⟩ | h | ⟨-, h⟩ | h | ⟨-, h⟩
      · lia
      · have := ihc h (by lia)
        lia
      · lia
      · have := ihb h (by lia)
        lia
      · lia

/-- An edge that does not go back behind the ends of the loop around stays inside. -/
theorem edges_inside {c : Code} {ends : Option LoopEnds} {current : Option InstrId}
    {next k u v : InstrId} (h3 : 3 ≤ k) (he : LoopEnds.Within ends k)
    (h : (u, v) ∈ c.edges ends current next) (hv : k ≤ v) : next ≤ v ∧ v < next + c.size := by
  rcases edges_target h with h | ⟨way, h⟩
  · exact h
  · have := Leave.target?_lt he h3 h
    lia

/-- Outside of loops, edges lead to the code itself, to the exit or to the exit for failure. -/
theorem edges_target_outside {c : Code} {current : Option InstrId} {next u v : InstrId}
    (h : (u, v) ∈ c.edges none current next) :
    (next ≤ v ∧ v < next + c.size) ∨ v = exitId ∨ v = failureId := by
  rcases edges_target h with h | ⟨way, h⟩
  · exact .inl h
  · cases way with
    | returns => exact .inr (.inl (Option.some.inj h).symm)
    | throws => exact .inr (.inr (Option.some.inj h).symm)
    | breaks | continues => cases h

/-- Where the edges from the body of a loop lead. -/
theorem edges_target_body {b : Code} {again done : InstrId} {current : Option InstrId}
    {next x y : InstrId} (h : (x, y) ∈ b.edges (some { again, done }) current next) :
    (next ≤ y ∧ y < next + b.size) ∨ y = again ∨ y = done ∨ y = exitId ∨ y = failureId := by
  rcases edges_target h with h | ⟨way, h⟩
  · exact .inl h
  · cases way with
    | returns => exact .inr (.inr (.inr (.inl (Option.some.inj h).symm)))
    | throws => exact .inr (.inr (.inr (.inr (Option.some.inj h).symm)))
    | breaks => exact .inr (.inr (.inl (Option.some.inj h).symm))
    | continues => exact .inr (.inl (Option.some.inj h).symm)

/-- The condition of a loop is entered along its own edges. -/
theorem edges_into_condition {c b : Code} {e : NodeId} {ends : Option LoopEnds}
    {current : Option InstrId} {next u v : InstrId} (h3 : 3 ≤ next)
    (h : (u, v) ∈ (loop e c b).edges ends current next) (hv : next + 1 ≤ v)
    (hv' : v < next + 1 + c.size) : (u, v) ∈ c.edges ends (some next) (next + 1) := by
  have h1 : exitId = 1 := rfl
  have h2 : failureId = 2 := rfl
  rcases mem_edges_loop.mp h with ⟨-, h⟩ | h | ⟨-, h⟩ | h | ⟨-, h⟩
  · lia
  · exact h
  · lia
  · have := edges_target_body h
    lia
  · lia

/-- Only a return leads to the exit. -/
theorem returnAt_of_edge_exit {c : Code} {ends : Option LoopEnds} {current : Option InstrId}
    {next u : InstrId} (h3 : 3 ≤ next)
    (he : ∀ e, ends = some e → 3 ≤ e.again ∧ 3 ≤ e.done)
    (h : (u, exitId) ∈ c.edges ends current next) : c.returnAt next u := by
  have h1 : exitId = 1 := rfl
  induction c generalizing ends current next with
  | skip => cases h
  | seq a b iha ihb =>
      rcases mem_edges_seq.mp h with h | h
      · exact .inl (iha h3 he h)
      · exact .inr (ihb (by lia) he h)
  | step op e =>
      have hv := (mem_edges_step.mp h).2
      lia
  | value n c ih => exact ih h3 he h
  | leave e way =>
      rcases mem_edges_leave.mp h with ⟨-, h⟩ | ⟨hu, htarget⟩
      · lia
      · cases way with
        | returns => exact ⟨rfl, hu⟩
        | throws => cases htarget
        | breaks =>
            obtain ⟨e, rfl, hdone⟩ := Option.map_eq_some_iff.mp htarget
            have := (he e rfl).2
            lia
        | continues =>
            obtain ⟨e, rfl, hagain⟩ := Option.map_eq_some_iff.mp htarget
            have := (he e rfl).1
            lia
  | branch e a b iha ihb =>
      rcases mem_edges_branch.mp h with h | h | ⟨-, h⟩ | ⟨-, h⟩
      · exact .inl (iha h3 he h)
      · exact .inr (ihb (by lia) he h)
      · lia
      · lia
  | loop e c b ihc ihb =>
      rcases mem_edges_loop.mp h with ⟨-, h⟩ | h | ⟨-, h⟩ | h | ⟨-, h⟩
      · lia
      · exact .inl (ihc (by lia) he h)
      · lia
      · refine .inr (ihb (by lia) ?_ h)
        intro e he'
        cases he'
        constructor <;> lia
      · lia

/-! ## Steps on the spine -/

/-- Where an edge from the spine may lead: up the spine, to what its start guards or is the gate
of, back to its start, or to an exit. -/
def SpineStep (c : Code) (next u v : InstrId) : Prop :=
  (c.spine next v ∧ u < v) ∨ c.guards next u v ∨ c.gates next u v ∨ v = u ∨ v = exitId ∨
    v = failureId

theorem SpineStep.lift {c d : Code} {next next' u v : InstrId} (h : c.SpineStep next u v)
    (hspine : c.spine next v → d.spine next' v) (hguards : c.guards next u v → d.guards next' u v)
    (hgates : c.gates next u v → d.gates next' u v) : d.SpineStep next' u v :=
  h.imp (.imp_left hspine) (.imp hguards (.imp_left hgates))

/-- An edge from the end of the condition of a loop leads into the body, back to the start, or past
the loop. -/
theorem spineStep_tested {e : NodeId} {c b : Code} {next u v : InstrId}
    (hout : c.out (some next) (next + 1) = some u)
    (hv : v = next ∨ v = next + 1 + c.size ∨
      next + 1 + c.size < v ∧ v < next + 1 + c.size + 1 + b.size) :
    (loop e c b).SpineStep next u v := by
  have hlt : u < next + 1 + c.size := (ComesBefore.start next).out c u hout
  rcases hv with hv | hv | hv
  · by_cases hvu : v = u
    · exact .inr (.inr (.inr (.inl hvu)))
    · exact .inr (.inl (.inl ⟨hout, hvu, by lia, by lia⟩))
  · exact .inl ⟨.inr (.inr hv), by lia⟩
  · exact .inr (.inr (.inl (.inl ⟨hout, hv⟩)))

theorem spine_step {c : Code} {current : Option InstrId} {next u v : InstrId}
    (hc : ComesBefore current next) (h : (u, v) ∈ c.edges none current next)
    (hu : c.spine next u ∨ current = some u) : c.SpineStep next u v := by
  -- An edge of a part starts in that part or where control comes from, so the number of its start
  -- says which of the parts the start is on the spine of.
  induction c generalizing current next with
  | skip => cases h
  | seq a b iha ihb =>
      rcases mem_edges_seq.mp h with h | h
      · have hu := hu.imp_left (spine_first · (hc.source_lt h))
        exact (iha hc h hu).lift .inl .inl .inl
      · have hu : b.spine (next + a.size) u ∨ a.out current next = some u := by
          rcases edges_source h with h | hr
          · exact .inr h
          · exact .inl (spine_second (hu.resolve_right (hc.ne (by lia))) hr.1)
        exact (ihb (hc.out a) h hu).lift .inr .inr .inr
  | step op e =>
      obtain ⟨hcur, rfl⟩ := mem_edges_step.mp h
      exact .inl ⟨rfl, hc u hcur⟩
  | value n c ih => exact ih hc h hu
  | leave e way =>
      rcases mem_edges_leave.mp h with ⟨hcur, rfl⟩ | ⟨-, htarget⟩
      · exact .inl ⟨rfl, hc u hcur⟩
      · cases way with
        | returns => exact .inr (.inr (.inr (.inr (.inl (Option.some.inj htarget).symm))))
        | throws => exact .inr (.inr (.inr (.inr (.inr (Option.some.inj htarget).symm))))
        | breaks | continues => cases htarget
  | branch e a b iha ihb =>
      have hc' : ComesBefore current (next + a.size) := hc.mono (Nat.le_add_right _ _)
      rcases mem_edges_branch.mp h with h | h | ⟨h, hv⟩ | ⟨h, hv⟩
      · have hu := hu.imp_left (spine_yes · (hc.source_lt h))
        exact (iha hc h hu).lift .inl .inl .inl
      · have hu : b.spine (next + a.size) u ∨ current = some u := by
          rcases edges_source h with h | hr
          · exact .inr h
          · exact hu.imp_left (spine_no · hr.1 hr.2)
        exact (ihb hc' h hu).lift (fun hv => .inr (.inl hv)) .inr .inr
      · have hlt := hc.out a u h
        exact .inl ⟨.inr (.inr hv), by lia⟩
      · have hlt := hc'.out b u h
        exact .inl ⟨.inr (.inr hv), by lia⟩
  | loop e c b ihc ihb =>
      -- the body is not on the spine: from there only the end of the condition can come
      have hbody (hr : next + 1 + c.size + 1 ≤ u) : False := by
        rcases hu with hu | hu
        · exact not_spine_body hr hu
        · exact hc.ne (by lia) hu
      rcases mem_edges_loop.mp h with ⟨h, hv⟩ | h | ⟨h, hv⟩ | h | ⟨h, hv⟩
      · have hlt := hc u h
        exact .inl ⟨.inl hv, by lia⟩
      · have hu : c.spine (next + 1) u ∨ some next = some u := by
          rcases edges_source h with h | hr
          · exact .inr h
          · exact .inl (spine_condition (hu.resolve_right (hc.ne (by lia))) hr.1 hr.2)
        exact (ihc (.start next) h hu).lift (fun hv => .inr (.inl hv)) .inr .inr
      · exact spineStep_tested h (.inr (.inl hv))
      · rcases edges_source h with hout | hr
        · have hlt : u < next + 1 + c.size := (ComesBefore.start next).out c u hout
          exact spineStep_tested hout (.inr (.inr (edges_from_before h (by lia))))
        · exact (hbody hr.1).elim
      · rcases out_cases h with hout | hr
        · exact spineStep_tested hout (.inl hv)
        · exact (hbody hr.1).elim

/-- Apart from returns in loops, only the spine leads to the exit. -/
theorem spine_of_edge_exit {c : Code} {current : Option InstrId}
    {next u : InstrId} (h3 : 3 ≤ next) (h : (u, exitId) ∈ c.edges none current next) :
    c.spine next u ∨ current = some u ∨ c.loopReturnAt next u := by
  have h1 : exitId = 1 := rfl
  induction c generalizing current next with
  | skip => cases h
  | seq a b iha ihb =>
      rcases mem_edges_seq.mp h with h | h
      · rcases iha h3 h with h | h | h
        · exact .inl (.inl h)
        · exact .inr (.inl h)
        · exact .inr (.inr (.inl h))
      · rcases ihb (by lia) h with h | h | h
        · exact .inl (.inr h)
        · rcases spine_of_out h with h | h
          · exact .inl (.inl h)
          · exact .inr (.inl h)
        · exact .inr (.inr (.inr h))
  | step op e => exact .inr (.inl (mem_edges_step.mp h).1)
  | value n c ih => exact ih h3 h
  | leave e way =>
      rcases mem_edges_leave.mp h with ⟨h, -⟩ | ⟨h, -⟩
      · exact .inr (.inl h)
      · exact .inl h
  | branch e a b iha ihb =>
      rcases mem_edges_branch.mp h with h | h | ⟨-, h⟩ | ⟨-, h⟩
      · rcases iha h3 h with h | h | h
        · exact .inl (.inl h)
        · exact .inr (.inl h)
        · exact .inr (.inr (.inl h))
      · rcases ihb (by lia) h with h | h | h
        · exact .inl (.inr (.inl h))
        · exact .inr (.inl h)
        · exact .inr (.inr (.inr h))
      · lia
      · lia
  | loop e c b => exact .inr (.inr (returnAt_of_edge_exit h3 (by simp) h))

/-! ## Guards come first -/

/-- An edge from something guarded leads to something guarded, to the guard or to the exit for
failure. -/
theorem guards_step {c : Code} (htests : c.testsHold = true) {current : Option InstrId}
    {next g u v : InstrId} (h3 : 3 ≤ next) (hc : ComesBefore current next)
    (h : (u, v) ∈ c.edges none current next) (hg : c.guards next g u) :
    c.guards next g v ∨ v = g ∨ v = failureId := by
  -- What is guarded lies in a single part, so an edge from there belongs to that part, or else
  -- control falls through there, where nothing is guarded.
  induction c generalizing current next with
  | skip | step | leave => exact hg.elim
  | value n c ih => exact ih htests h3 hc h hg
  | seq a b iha ihb =>
      simp only [testsHold, Bool.and_eq_true] at htests
      rcases hg with hg | hg
      · have hr := guards_range hg
        rcases mem_edges_seq.mp h with h | h
        · exact (iha htests.1 h3 hc h hg).imp_left .inl
        · rcases edges_source h with h | h
          · exact absurd hg (not_guards_of_out hc h)
          · lia
      · have hr := guards_range hg
        rcases mem_edges_seq.mp h with h | h
        · have := hc.source_lt h
          lia
        · exact (ihb htests.2 (by lia) (hc.out a) h hg).imp_left .inr
  | branch e a b iha ihb =>
      simp only [testsHold, Bool.and_eq_true] at htests
      have hc' : ComesBefore current (next + a.size) := hc.mono (Nat.le_add_right _ _)
      rcases hg with hg | hg
      · have hr := guards_range hg
        rcases mem_edges_branch.mp h with h | h | ⟨h, -⟩ | ⟨h, -⟩
        · exact (iha htests.1 h3 hc h hg).imp_left .inl
        · rcases edges_source h with h | h
          · exact absurd h (hc.ne hr.1)
          · lia
        · exact absurd hg (not_guards_of_out hc h)
        · rcases out_cases h with h | h
          · exact absurd h (hc.ne hr.1)
          · lia
      · have hr := guards_range hg
        rcases mem_edges_branch.mp h with h | h | ⟨h, -⟩ | ⟨h, -⟩
        · have := hc.source_lt h
          lia
        · exact (ihb htests.2 (by lia) hc' h hg).imp_left .inr
        · have := hc.out a u h
          lia
        · exact absurd hg (not_guards_of_out hc' h)
  | loop e c b ihc =>
      have hret : c.returns = false := by simpa [testsHold] using htests
      have hstart := ComesBefore.start next
      have hu : next ≤ u ∧ u < next + 1 + c.size := by
        rcases hg with ⟨-, -, hr⟩ | hg
        · exact hr
        · have := guards_range hg
          lia
      -- the end of the condition guards nothing but what comes before it
      have htested : c.out (some next) (next + 1) ≠ some u := fun hout => by
        rcases hg with ⟨hout', hne, -⟩ | hg
        · exact hne (Option.some.inj (hout.symm.trans hout'))
        · exact not_guards_of_out hstart hout hg
      rcases mem_edges_loop.mp h with ⟨h, -⟩ | h | ⟨h, -⟩ | h | ⟨h, -⟩
      · exact absurd h (hc.ne hu.1)
      · rcases hg with ⟨hout, -, -⟩ | hg
        · rcases edges_target_outside h with hv | rfl | hv
          · by_cases hvg : v = g
            · exact .inr (.inl hvg)
            · exact .inl (.inl ⟨hout, hvg, by lia, by lia⟩)
          · -- an edge to the exit would be a return in the condition
            have := returns_of_returnAt (returnAt_of_edge_exit (by lia) (by simp) h)
            rw [hret] at this
            cases this
          · exact .inr (.inr hv)
        · exact (ihc (testsHold_of_not_returns hret) (by lia) hstart h hg).imp_left .inr
      · exact absurd h htested
      · rcases edges_source h with h | h
        · exact absurd h htested
        · lia
      · rcases out_cases h with h | h
        · exact absurd h htested
        · lia

/-! ## Gates come first, or nothing below them is pending -/

/-- Where an edge from behind a gate may lead: behind the gate, to what the gate guards, to the
gate, to an exit, or to where an edge from the gate comes first. -/
def GateStep (c : Code) (es : List Edge) (next g u v : InstrId) : Prop :=
  c.gates next g v ∨ c.guards next g v ∨ v = g ∨ v = exitId ∨ v = failureId ∨
    Precedes (g, v) (u, v) es

theorem GateStep.lift {c d : Code} {es es' : List Edge} {next next' g u v : InstrId}
    (h : c.GateStep es next g u v) (hgates : c.gates next g v → d.gates next' g v)
    (hguards : c.guards next g v → d.guards next' g v)
    (hes : Precedes (g, v) (u, v) es → Precedes (g, v) (u, v) es') :
    d.GateStep es' next' g u v :=
  h.imp hgates (.imp hguards (.imp_right (.imp_right (.imp_right hes))))

/-- An edge from the body of a loop. -/
theorem gates_step_loop {e : NodeId} {c b : Code} {current : Option InstrId}
    {next g u v : InstrId} (hc : ComesBefore current next)
    (h : (u, v) ∈ (loop e c b).edges none current next)
    (hout : c.out (some next) (next + 1) = some g)
    (hr : next + 1 + c.size < u ∧ u < next + 1 + c.size + 1 + b.size) :
    (loop e c b).GateStep ((loop e c b).edges none current next) next g u v := by
  have hstart := ComesBefore.start next
  have hg : g < next + 1 + c.size := hstart.out c g hout
  have hback (hv : v = next) : (loop e c b).guards next g v ∨ v = g := by
    by_cases hvg : v = g
    · exact .inr hvg
    · exact .inl (.inl ⟨hout, hvg, by lia, by lia⟩)
  rcases mem_edges_loop.mp h with ⟨h, -⟩ | h | ⟨h, -⟩ | h | ⟨-, hv⟩
  · exact absurd h (hc.ne (by lia))
  · have := hstart.source_lt h
    lia
  · have := (Option.some.inj (hout.symm.trans h))
    lia
  · rcases edges_target_body h with hv | hv | hv | hv | hv
    · exact .inl (.inl ⟨hout, by lia, by lia⟩)
    · rcases hback hv with hv | hv
      · exact .inr (.inl hv)
      · exact .inr (.inr (.inl hv))
    · -- the edge from the condition to the place after the loop is older
      have hfirst : Precedes (g, v) (u, v)
          (edgeFrom (c.out (some next) (next + 1)) (next + 1 + c.size)) :=
        ⟨[], [], by simp [edgeFrom, hout, hv], by simp⟩
      refine .inr (.inr (.inr (.inr (.inr ((hfirst.prepend ?_).append _)))))
      intro hmem
      rcases List.mem_append.mp hmem with hmem | hmem
      · exact hc.ne (by lia) (mem_edgeFrom.mp hmem).1
      · have := hstart.source_lt hmem
        lia
    · exact .inr (.inr (.inr (.inl hv)))
    · exact .inr (.inr (.inr (.inr (.inl hv))))
  · rcases hback hv with hv | hv
    · exact .inr (.inl hv)
    · exact .inr (.inr (.inl hv))

theorem gates_step {c : Code} {current : Option InstrId} {next g u v : InstrId}
    (hc : ComesBefore current next) (h : (u, v) ∈ c.edges none current next)
    (hg : c.gates next g u) : c.GateStep (c.edges none current next) next g u v := by
  -- As with guards; but here the order of the edges counts, so it is also needed that an edge of a
  -- later part is none of an earlier part.
  induction c generalizing current next with
  | skip | step | leave => exact hg.elim
  | value n c ih => exact ih hc h hg
  | seq a b iha ihb =>
      rcases hg with hg | hg
      · have hr := gates_range hg
        rcases mem_edges_seq.mp h with h | h
        · exact (iha hc h hg).lift .inl .inl (·.append _)
        · rcases edges_source h with h | h
          · exact absurd hg (not_gates_of_out hc h)
          · lia
      · have hr := gates_range hg
        have hnot : (u, v) ∉ a.edges none current next := fun h => by
          have := hc.source_lt h
          lia
        have h := (mem_edges_seq.mp h).resolve_left hnot
        exact (ihb (hc.out a) h hg).lift .inr .inr (·.prepend hnot)
  | branch e a b iha ihb =>
      have hc' : ComesBefore current (next + a.size) := hc.mono (Nat.le_add_right _ _)
      rcases hg with hg | hg
      · have hr := gates_range hg
        rcases mem_edges_branch.mp h with h | h | ⟨h, -⟩ | ⟨h, -⟩
        · exact (iha hc h hg).lift .inl .inl fun hv => (hv.append _).append _
        · rcases edges_source h with h | h
          · exact absurd h (hc.ne hr.1)
          · lia
        · exact absurd hg (not_gates_of_out hc h)
        · rcases out_cases h with h | h
          · exact absurd h (hc.ne hr.1)
          · lia
      · have hr := gates_range hg
        have hnot : (u, v) ∉ a.edges none current next := fun h => by
          have := hc.source_lt h
          lia
        rcases mem_edges_branch.mp h with h | h | ⟨h, -⟩ | ⟨h, -⟩
        · exact absurd h hnot
        · exact (ihb hc' h hg).lift .inr .inr fun hv => (hv.prepend hnot).append _
        · have := hc.out a u h
          lia
        · exact absurd hg (not_gates_of_out hc' h)
  | loop e c b ihc =>
      rcases hg with ⟨hout, hr⟩ | hg
      · exact gates_step_loop hc h hout hr
      · have hstart := ComesBefore.start next
        have hr := gates_range hg
        have htested : c.out (some next) (next + 1) ≠ some u := fun h =>
          not_gates_of_out hstart h hg
        have hcur : current ≠ some u := hc.ne (by lia)
        have hnot : (u, v) ∉ edgeFrom current next := fun h => hcur (mem_edgeFrom.mp h).1
        rcases mem_edges_loop.mp h with ⟨h, -⟩ | h | ⟨h, -⟩ | h | ⟨h, -⟩
        · exact absurd h hcur
        · exact (ihc hstart h hg).lift .inr .inr
            fun hv => ((hv.prepend hnot).append _).append _
        · exact absurd h htested
        · rcases edges_source h with h | h
          · exact absurd h htested
          · lia
        · rcases out_cases h with h | h
          · exact absurd h htested
          · lia

/-- A gate is on the spine. -/
theorem spine_of_gates {c : Code} {next g u : InstrId} (h : c.gates next g u) :
    c.spine next g := by
  induction c generalizing next with
  | skip | step | leave => exact h.elim
  | seq a b iha ihb =>
      rcases h with h | h
      · exact .inl (iha h)
      · exact .inr (ihb h)
  | value n c ih => exact ih h
  | branch e a b iha ihb =>
      rcases h with h | h
      · exact .inl (iha h)
      · exact .inr (.inl (ihb h))
  | loop e c b ihc =>
      rcases h with ⟨hout, -⟩ | h
      · rcases spine_of_out hout with h | h
        · exact .inr (.inl h)
        · exact .inl (Option.some.inj h).symm
      · exact .inr (.inl (ihc h))

/-! ## Paths to the spine -/

/-- Whether all edges of a graph that lead to the instructions of a piece of code are its own. -/
def Alone (c : Code) (f : Flow) (ends : Option LoopEnds) (current : Option InstrId)
    (next : InstrId) : Prop :=
  ∀ a b, b ∈ f.succs a → next ≤ b → b < next + c.size → (a, b) ∈ c.edges ends current next

namespace Alone

variable {f : Flow} {current : Option InstrId} {next : InstrId}

/-- A path from outside enters a piece of code from where control comes from. -/
theorem enters {c : Code} {ends : Option LoopEnds} (h : c.Alone f ends current next)
    {i u : InstrId} {p : List InstrId} (hp : f.Path i p u)
    (hi : ¬ (next ≤ i ∧ i < next + c.size)) (hu : next ≤ u ∧ u < next + c.size) :
    ∃ d ∈ p, current = some d := by
  obtain ⟨q, x, y, hq, hxy, hx, hy, hpre⟩ :=
    hp.enters (fun j => next ≤ j ∧ j < next + c.size) hi hu
  refine ⟨x, hpre.subset hq.last_mem, ?_⟩
  exact (edges_source (h x y hxy hy.1 hy.2)).resolve_right hx

theorem first {a b : Code} (h3 : 3 ≤ next) (h : (seq a b).Alone f none current next) :
    a.Alone f none current next := by
  intro x y hxy hy hlt
  refine (mem_edges_seq.mp (h x y hxy hy (by rw [size_seq]; lia))).resolve_right fun hmem => ?_
  have := edges_inside h3 (LoopEnds.within_none next) hmem hy
  lia

theorem second {a b : Code} (h3 : 3 ≤ next) (h : (seq a b).Alone f none current next) :
    b.Alone f none (a.out current next) (next + a.size) := by
  intro x y hxy hy hlt
  have hmem := h x y hxy (by lia) (by rw [size_seq]; lia)
  refine (mem_edges_seq.mp hmem).resolve_left fun hmem => ?_
  have := edges_inside h3 (LoopEnds.within_none next) hmem (by lia)
  lia

theorem yes {e : NodeId} {a b : Code} (h3 : 3 ≤ next)
    (h : (branch e a b).Alone f none current next) : a.Alone f none current next := by
  intro x y hxy hy hlt
  have hmem := h x y hxy hy (by rw [size_branch]; lia)
  rcases mem_edges_branch.mp hmem with hmem | hmem | ⟨-, hmem⟩ | ⟨-, hmem⟩
  · exact hmem
  · have := edges_inside h3 (LoopEnds.within_none next) hmem hy
    lia
  · lia
  · lia

theorem no {e : NodeId} {a b : Code} (h3 : 3 ≤ next)
    (h : (branch e a b).Alone f none current next) :
    b.Alone f none current (next + a.size) := by
  intro x y hxy hy hlt
  have hmem := h x y hxy (by lia) (by rw [size_branch]; lia)
  rcases mem_edges_branch.mp hmem with hmem | hmem | ⟨-, hmem⟩ | ⟨-, hmem⟩
  · have := edges_inside h3 (LoopEnds.within_none next) hmem (by lia)
    lia
  · exact hmem
  · lia
  · lia

theorem condition {e : NodeId} {c b : Code} (h3 : 3 ≤ next)
    (h : (loop e c b).Alone f none current next) : c.Alone f none (some next) (next + 1) := by
  intro x y hxy hy hlt
  exact edges_into_condition h3 (h x y hxy (by lia) (by rw [size_loop]; lia)) hy hlt

theorem body {e : NodeId} {c b : Code} (h3 : 3 ≤ next)
    (h : (loop e c b).Alone f none current next) :
    b.Alone f (some { again := next, done := next + 1 + c.size }) (c.out (some next) (next + 1))
      (next + 1 + c.size + 1) := by
  intro x y hxy hy hlt
  have hmem := h x y hxy (by lia) (by rw [size_loop]; lia)
  rcases mem_edges_loop.mp hmem with ⟨-, hmem⟩ | hmem | ⟨-, hmem⟩ | hmem | ⟨-, hmem⟩
  · lia
  · have := edges_inside h3 (LoopEnds.within_none next) hmem (by lia)
    lia
  · lia
  · exact hmem
  · lia

end Alone

/-- Whether a path passes an instruction of the spine, or the one that control comes from, with an
edge that leads up to the given one. -/
def Passed (c : Code) (current : Option InstrId) (next v : InstrId) (p : List InstrId) : Prop :=
  ∃ d ∈ p, (c.spine next d ∨ current = some d) ∧ d < v ∧ (d, v) ∈ c.edges none current next

theorem Passed.lift {c d : Code} {current current' : Option InstrId} {next next' v : InstrId}
    {p : List InstrId} (h : c.Passed current next v p)
    (hon : ∀ i, c.spine next i ∨ current = some i → d.spine next' i ∨ current' = some i)
    (hedges : ∀ i, (i, v) ∈ c.edges none current next → (i, v) ∈ d.edges none current' next') :
    d.Passed current' next' v p := by
  obtain ⟨i, hi, hi', hlt, hedge⟩ := h
  exact ⟨i, hi, hon i hi', hlt, hedges i hedge⟩

/-- A path to the start of a loop enters the loop from where control comes from. -/
theorem passed_start {f : Flow} {e : NodeId} {c b : Code} {current : Option InstrId}
    {next u i : InstrId} {p : List InstrId} (hc : ComesBefore current next)
    (ha : (loop e c b).Alone f none current next) (hi : i < next) (hp : f.Path i p u)
    (h : (u, next) ∈ (loop e c b).edges none current next) :
    (loop e c b).Passed current next next p := by
  obtain ⟨d, hd, hcur⟩ : ∃ d ∈ p, current = some d := by
    rcases edges_source h with hcur | hr
    · exact ⟨u, hp.last_mem, hcur⟩
    · exact ha.enters hp (by lia) hr
  exact ⟨d, hd, .inr hcur, hc d hcur, mem_edges_loop.mpr (.inl ⟨hcur, rfl⟩)⟩

/-- A path to the place after a loop has passed the end of the condition: the body is entered from
there. -/
theorem passed_done {f : Flow} {e : NodeId} {c b : Code} {current : Option InstrId}
    {next u i : InstrId} {p : List InstrId} (h3 : 3 ≤ next)
    (ha : (loop e c b).Alone f none current next) (hi : i < next) (hp : f.Path i p u)
    (h : (u, next + 1 + c.size) ∈ (loop e c b).edges none current next) :
    (loop e c b).Passed current next (next + 1 + c.size) p := by
  obtain ⟨d, hd, hout⟩ : ∃ d ∈ p, c.out (some next) (next + 1) = some d := by
    rcases mem_edges_loop.mp h with ⟨-, h⟩ | h | ⟨h, -⟩ | h | ⟨-, h⟩
    · lia
    · have := edges_inside h3 (LoopEnds.within_none next) h (by lia)
      lia
    · exact ⟨u, hp.last_mem, h⟩
    · rcases edges_source h with hout | hr
      · exact ⟨u, hp.last_mem, hout⟩
      · exact (ha.body h3).enters hp (by lia) hr
    · lia
  have hlt : d < next + 1 + c.size := (ComesBefore.start next).out c d hout
  refine ⟨d, hd, .inl ?_, hlt, mem_edges_loop.mpr (.inr (.inr (.inl ⟨hout, rfl⟩)))⟩
  rcases spine_of_out hout with hon | hon
  · exact .inr (.inl hon)
  · exact .inl (Option.some.inj hon).symm

/-- **Paths to the spine pass the spine.** A path along an edge to the spine passes an instruction
of the spine, or the one that control comes from, with an edge that leads up to the same. -/
theorem spine_passes {c : Code} {f : Flow} {current : Option InstrId} {next u v i : InstrId}
    {p : List InstrId} (h3 : 3 ≤ next) (hc : ComesBefore current next)
    (ha : c.Alone f none current next) (hi : i < next) (hp : f.Path i p u)
    (h : (u, v) ∈ c.edges none current next) (hv : c.spine next v) :
    c.Passed current next v p := by
  have hu := hp.last_mem
  induction c generalizing current next with
  | skip => cases h
  | value n c ih => exact ih h3 hc ha hi h hv
  | step op e =>
      obtain ⟨hcur, rfl⟩ := mem_edges_step.mp h
      exact ⟨u, hu, .inr hcur, hc u hcur, h⟩
  | leave e way =>
      rcases mem_edges_leave.mp h with ⟨hcur, rfl⟩ | ⟨-, htarget⟩
      · exact ⟨u, hu, .inr hcur, hc u hcur, h⟩
      · have hv : v = next := hv
        have := Leave.target?_lt (LoopEnds.within_none next) h3 htarget
        lia
  | seq a b iha ihb =>
      have hle := (spine_range hv).1
      rcases mem_edges_seq.mp h with h | h
      · have hin := edges_inside h3 (LoopEnds.within_none next) h hle
        exact (iha h3 hc (ha.first h3) hi h (spine_first hv hin.2)).lift (fun _ => .imp_left .inl)
          fun _ hmem => mem_edges_seq.mpr (.inl hmem)
      · have hin := edges_inside h3 (LoopEnds.within_none next) h hle
        have hb := ihb (by lia) (hc.out a) (ha.second h3) (by lia) h (spine_second hv hin.1)
        refine hb.lift (fun d hon => ?_) fun _ hmem => mem_edges_seq.mpr (.inr hmem)
        rcases hon with hon | hon
        · exact .inl (.inr hon)
        · exact (spine_of_out hon).imp_left .inl
  | branch e a b iha ihb =>
      have hc' : ComesBefore current (next + a.size) := hc.mono (Nat.le_add_right _ _)
      have hle := (spine_range hv).1
      rcases mem_edges_branch.mp h with h' | h' | ⟨hout, hjoin⟩ | ⟨hout, hjoin⟩
      · have hin := edges_inside h3 (LoopEnds.within_none next) h' hle
        exact (iha h3 hc (ha.yes h3) hi h' (spine_yes hv hin.2)).lift (fun _ => .imp_left .inl)
          fun _ hmem => mem_edges_branch.mpr (.inl hmem)
      · have hin := edges_inside h3 (LoopEnds.within_none next) h' hle
        exact (ihb (by lia) hc' (ha.no h3) (by lia) h' (spine_no hv hin.1 hin.2)).lift
          (fun _ => .imp_left fun hon => .inr (.inl hon))
          fun _ hmem => mem_edges_branch.mpr (.inr (.inl hmem))
      · have hlt := hc.out a u hout
        exact ⟨u, hu, (spine_of_out hout).imp_left .inl, by lia, h⟩
      · have hlt := hc'.out b u hout
        exact ⟨u, hu, (spine_of_out hout).imp_left fun hon => .inr (.inl hon), by lia, h⟩
  | loop e c b ihc =>
      rcases hv with rfl | hv | rfl
      · exact passed_start hc ha hi hp h
      · -- nothing outside of the condition leads into it but the start of the loop
        have hr := spine_range hv
        have hmem := edges_into_condition h3 h hr.1 hr.2
        refine (ihc (by lia) (.start next) (ha.condition h3) (by lia) hmem hv).lift
          (fun d hon => .inl ?_) fun _ hmem => mem_edges_loop.mpr (.inr (.inl hmem))
        rcases hon with hon | hon
        · exact .inr (.inl hon)
        · exact .inl (Option.some.inj hon).symm
      · exact passed_done h3 ha hi hp h

end Code

/-! ## The order of predecessors -/

namespace Flow

theorem foldl_addOnce_eq_append (l acc : List InstrId) :
    ∃ more, l.foldl addOnce acc = acc ++ more := by
  induction l generalizing acc with
  | nil => exact ⟨[], by simp⟩
  | cons x l ih =>
      obtain ⟨more, hmore⟩ := ih (addOnce acc x)
      by_cases hx : x ∈ acc
      · exact ⟨more, by rw [List.foldl_cons, hmore, addOnce, if_pos (by simpa using hx)]⟩
      · refine ⟨x :: more, ?_⟩
        rw [List.foldl_cons, hmore, addOnce, if_neg (by simpa using hx)]
        simp

/-- What comes first in a list comes first when it is entered once. -/
theorem mem_before_of_precedes {l before behind : List InstrId} {g u : InstrId} (hne : u ≠ g)
    (h : Precedes g u l) (hl : l.foldl addOnce [] = before ++ u :: behind) : g ∈ before := by
  obtain ⟨l₁, l₂, rfl, hu⟩ := h
  rw [List.foldl_append, List.foldl_cons] at hl
  set entered := addOnce (l₁.foldl addOnce []) g with hentered
  obtain ⟨more, hmore⟩ := foldl_addOnce_eq_append l₂ entered
  have hg : g ∈ entered := mem_addOnce.mpr (.inr rfl)
  have hnot : u ∉ entered := by
    intro hmem
    rcases mem_addOnce.mp hmem with hmem | hmem
    · exact hu ((mem_foldl_addOnce.mp hmem).resolve_left List.not_mem_nil)
    · exact hne hmem
  rw [hmore] at hl
  rcases List.append_eq_append_iff.mp hl with ⟨rest, hbefore, -⟩ | ⟨rest, hentered', hrest⟩
  · rw [hbefore]
    exact List.mem_append_left _ hg
  · cases rest with
    | nil =>
        rw [List.append_nil] at hentered'
        exact hentered' ▸ hg
    | cons x rest =>
        obtain ⟨rfl, -⟩ := List.cons.inj hrest
        exact absurd (hentered' ▸ by simp) hnot

theorem precedes_arrivals {es : List Edge} {g u v : InstrId}
    (h : Precedes (g, v) (u, v) es) : Precedes g u (arrivals es v) := by
  obtain ⟨l₁, l₂, rfl, hu⟩ := h
  exact ⟨arrivals l₁ v, arrivals l₂ v, by simp [arrivals], fun hmem => hu (mem_arrivals.mp hmem)⟩

end Flow

/-! ## The spine of a body -/

namespace Code

variable (c : Code) (owner : NodeId)

/-- Control comes to a body from before it. -/
theorem entry_before : ComesBefore (some entryId) 3 := by
  intro i hi
  cases hi
  decide

theorem alone_flow : c.Alone (c.flow owner) none (some entryId) 3 := by
  have h1 : exitId = 1 := rfl
  have hs : c.sinkId = 3 + c.size := rfl
  intro a b hab hb hlt
  rw [mem_succs_flow, mem_flowEdges] at hab
  rcases hab with hab | ⟨-, hab⟩ | ⟨-, hab⟩ | ⟨-, hab⟩
  · exact hab
  · lia
  · lia
  · lia

theorem ne_failure_of_turn {v : InstrId}
    (h : (c.flow owner).eligible v = true ∨ v = c.sinkId) : v ≠ failureId := by
  rintro rfl
  rcases h with h | h
  · rw [eligible_failure] at h
    cases h
  · have h2 : failureId = 2 := rfl
    have hs : c.sinkId = 3 + c.size := rfl
    lia

/-- The instructions on the spine of a body. -/
def OnSpine (i : InstrId) : Prop := i = entryId ∨ i = exitId ∨ i = c.sinkId ∨ c.spine 3 i

/-- Instructions are ranked by their numbers, but the exit comes right before the sink. -/
def spineRank (i : InstrId) : Nat :=
  if i = exitId then c.sinkId else if i = c.sinkId then c.sinkId + 1 else i

theorem spineRank_of_lt {i : InstrId} (h1 : i ≠ exitId) (hs : i < c.sinkId) :
    c.spineRank i = i := by
  rw [spineRank, if_neg h1, if_neg (Nat.ne_of_lt hs)]

theorem spineRank_lt_exit {i : InstrId} (h1 : i ≠ exitId) (hs : i < c.sinkId) :
    c.spineRank i < c.spineRank exitId := by
  rw [c.spineRank_of_lt h1 hs, spineRank, if_pos rfl]
  exact hs

theorem spineRank_exit_lt_sink : c.spineRank exitId < c.spineRank c.sinkId := by
  have h1 : exitId = 1 := rfl
  have hs : c.sinkId = 3 + c.size := rfl
  rw [spineRank, spineRank, if_pos rfl, if_neg (by lia), if_pos rfl]
  exact Nat.lt_succ_self _

/-- The instructions of the code on the spine, and the entry, are ranked by their numbers. -/
theorem spineRank_of_spine {i : InstrId} (h : c.spine 3 i ∨ some entryId = some i) :
    c.spineRank i = i ∧ i ≠ exitId ∧ i < c.sinkId := by
  have h0 : entryId = 0 := rfl
  have h1 : exitId = 1 := rfl
  have hs : c.sinkId = 3 + c.size := rfl
  have hi : i ≠ exitId ∧ i < c.sinkId := by
    rcases h with h | h
    · have := spine_range h
      constructor <;> lia
    · cases h
      constructor <;> lia
  exact ⟨c.spineRank_of_lt hi.1 hi.2, hi⟩

theorem onSpine_of_spine {i : InstrId} (h : c.spine 3 i ∨ some entryId = some i) : c.OnSpine i := by
  rcases h with h | h
  · exact .inr (.inr (.inr h))
  · exact .inl (Option.some.inj h).symm

/-- Edges of the code start on the spine only if they start on the spine of the code. -/
theorem spine_of_source {u v : InstrId} (h : (u, v) ∈ c.edges none (some entryId) 3)
    (hu : c.OnSpine u) : c.spine 3 u ∨ some entryId = some u := by
  have h1 : exitId = 1 := rfl
  have hs : c.sinkId = 3 + c.size := rfl
  rcases edges_source h with h | h
  · exact .inr h
  · rcases hu with rfl | hu | hu | hu
    · exact .inr rfl
    · lia
    · lia
    · exact .inl hu

theorem onSpine_step {u v : InstrId} (hu : c.OnSpine u) (h : (u, v) ∈ c.flowEdges)
    (hv : v ≠ failureId) :
    (c.OnSpine v ∧ c.spineRank u < c.spineRank v) ∨ c.guards 3 u v ∨ c.gates 3 u v ∨ v = u := by
  rw [mem_flowEdges] at h
  rcases h with h | ⟨h, rfl⟩ | ⟨rfl, rfl⟩ | ⟨rfl, -⟩
  · have hu := c.spine_of_source h hu
    obtain ⟨hru, hne, hlt⟩ := c.spineRank_of_spine hu
    rcases spine_step entry_before h hu with ⟨hon, hup⟩ | hg | hg | hvu | rfl | hfail
    · obtain ⟨hrv, -⟩ := c.spineRank_of_spine (.inl hon)
      exact .inl ⟨c.onSpine_of_spine (.inl hon), by rw [hru, hrv]; exact hup⟩
    · exact .inr (.inl hg)
    · exact .inr (.inr (.inl hg))
    · exact .inr (.inr (.inr hvu))
    · exact .inl ⟨.inr (.inl rfl), c.spineRank_lt_exit hne hlt⟩
    · exact absurd hfail hv
  · obtain ⟨-, hne, hlt⟩ := c.spineRank_of_spine (spine_of_out h)
    exact .inl ⟨.inr (.inl rfl), c.spineRank_lt_exit hne hlt⟩
  · exact .inl ⟨.inr (.inr (.inl rfl)), c.spineRank_exit_lt_sink⟩
  · have h0 : entryId = 0 := rfl
    have h1 : exitId = 1 := rfl
    have h2 : failureId = 2 := rfl
    have hs : c.sinkId = 3 + c.size := rfl
    rcases hu with hu | hu | hu | hu
    · lia
    · lia
    · lia
    · have := spine_range hu
      lia

theorem onSpine_passes {u v : InstrId} {p : List InstrId} (hv : c.OnSpine v)
    (h : (u, v) ∈ c.flowEdges) (hp : (c.flow owner).Path entryId p u) (hfail : u ≠ failureId)
    (hreturn : ¬ c.loopReturnAt 3 u) :
    ∃ d ∈ p, c.OnSpine d ∧ c.spineRank d < c.spineRank v ∧ (d, v) ∈ c.flowEdges := by
  have h0 : entryId = 0 := rfl
  have h1 : exitId = 1 := rfl
  have h2 : failureId = 2 := rfl
  have hs : c.sinkId = 3 + c.size := rfl
  have hedge := h
  rw [mem_flowEdges] at h
  rcases h with h | ⟨h, rfl⟩ | ⟨rfl, rfl⟩ | ⟨rfl, -⟩
  · rcases edges_target_outside h with hr | rfl | rfl
    · have hv : c.spine 3 v := by
        rcases hv with hv | hv | hv | hv
        · lia
        · lia
        · lia
        · exact hv
      obtain ⟨d, hd, hon, hlt, hd'⟩ := spine_passes (Nat.le_refl 3) entry_before
        (c.alone_flow owner) (show entryId < 3 by decide) hp h hv
      obtain ⟨hrd, -⟩ := c.spineRank_of_spine hon
      obtain ⟨hrv, -⟩ := c.spineRank_of_spine (.inl hv)
      refine ⟨d, hd, c.onSpine_of_spine hon, by rw [hrd, hrv]; exact hlt, ?_⟩
      exact mem_flowEdges.mpr (.inl hd')
    · have hu : c.spine 3 u ∨ some entryId = some u := by
        rcases spine_of_edge_exit (Nat.le_refl 3) h with hu | hu | hu
        · exact .inl hu
        · exact .inr hu
        · exact absurd hu hreturn
      obtain ⟨-, hne, hlt⟩ := c.spineRank_of_spine hu
      exact ⟨u, hp.last_mem, c.onSpine_of_spine hu, c.spineRank_lt_exit hne hlt, hedge⟩
    · rcases hv with hv | hv | hv | hv
      · lia
      · lia
      · lia
      · have := spine_range hv
        lia
  · have hu := spine_of_out h
    obtain ⟨-, hne, hlt⟩ := c.spineRank_of_spine hu
    exact ⟨u, hp.last_mem, c.onSpine_of_spine hu, c.spineRank_lt_exit hne hlt, hedge⟩
  · exact ⟨exitId, hp.last_mem, .inr (.inl rfl), c.spineRank_exit_lt_sink, hedge⟩
  · exact absurd rfl hfail

theorem guards_step_flow (htests : c.testsHold = true) {g u v : InstrId}
    (hg : c.guards 3 g u) (hv : v ≠ failureId) (h : (u, v) ∈ c.flowEdges) :
    c.guards 3 g v ∨ v = g := by
  have h1 : exitId = 1 := rfl
  have h2 : failureId = 2 := rfl
  have hr := guards_range hg
  rw [mem_flowEdges] at h
  rcases h with h | ⟨h, -⟩ | ⟨h, -⟩ | ⟨h, -⟩
  · rcases guards_step htests (Nat.le_refl 3) entry_before h hg with hgv | hvg | hfail
    · exact .inl hgv
    · exact .inr hvg
    · exact absurd hfail hv
  · exact absurd hg (not_guards_of_out entry_before h)
  · lia
  · lia

theorem gates_step_flow {g u v : InstrId} {before behind : List InstrId} (hg : c.gates 3 g u)
    (hv : v ≠ failureId) (h : (c.flow owner).preds v = before ++ u :: behind) :
    c.gates 3 g v ∨ c.guards 3 g v ∨ v = g ∨ g ∈ before ∨
      c.OnSpine v ∧ c.spineRank g < c.spineRank v := by
  have h1 : exitId = 1 := rfl
  have h2 : failureId = 2 := rfl
  have hr := gates_range hg
  have hmem : (u, v) ∈ c.flowEdges := by
    rw [← c.mem_preds_flow owner, h]
    simp
  rw [mem_flowEdges] at hmem
  rcases hmem with hmem | ⟨hmem, -⟩ | ⟨hmem, -⟩ | ⟨hmem, -⟩
  · rcases gates_step entry_before hmem hg with hgv | hgv | hvg | rfl | hfail | hpre
    · exact .inl hgv
    · exact .inr (.inl hgv)
    · exact .inr (.inr (.inl hvg))
    · obtain ⟨-, hne, hlt⟩ := c.spineRank_of_spine (.inl (spine_of_gates hg))
      exact .inr (.inr (.inr (.inr ⟨.inr (.inl rfl), c.spineRank_lt_exit hne hlt⟩)))
    · exact absurd hfail hv
    · rw [preds_flow] at h
      have hne : u ≠ g := fun hug => not_spine_of_gates hg (hug ▸ spine_of_gates hg)
      have hpre : Precedes (g, v) (u, v) c.flowEdges := (hpre.append _).append _
      exact .inr (.inr (.inr (.inl
        (Flow.mem_before_of_precedes hne (Flow.precedes_arrivals hpre) h))))
  · exact absurd hg (not_gates_of_out entry_before hmem)
  · lia
  · lia

/-- **The spine of a body** whose loops have no return in their conditions. Paths that return from
a loop are left out. -/
def flowSpine (htests : c.testsHold = true) :
    (c.flow owner).Spine (c.loopReturnAt 3) c.sinkId where
  on := c.OnSpine
  rank := c.spineRank
  guards := c.guards 3
  gates := c.gates 3
  root_free := by
    intro g hg
    have := (guards_range hg).2
    exact Nat.lt_irrefl _ this
  guards_step := by
    intro g u v hg hv h
    exact c.guards_step_flow htests hg (c.ne_failure_of_turn owner hv)
      ((c.mem_preds_flow owner).mp h)
  off_of_gates := by
    intro g u hg hu
    have h0 : entryId = 0 := rfl
    have h1 : exitId = 1 := rfl
    have hs : c.sinkId = 3 + c.size := rfl
    have hr := gates_range hg
    rcases hu with hu | hu | hu | hu
    · lia
    · lia
    · lia
    · exact not_spine_of_gates hg hu
  gates_step := by
    intro g u v before behind hg hv h
    exact c.gates_step_flow owner hg (c.ne_failure_of_turn owner hv) h
  on_step := by
    intro u v hu h hv
    exact c.onSpine_step hu ((c.mem_preds_flow owner).mp h) (c.ne_failure_of_turn owner hv)
  passes := by
    rintro u v p hv h ⟨hp, hfree⟩
    obtain ⟨hfail, hreturn⟩ := hfree u hp.last_mem
    have hu : u ≠ failureId := by
      rintro rfl
      rw [isFailure_failure] at hfail
      cases hfail
    obtain ⟨d, hd, hon, hlt, hd'⟩ :=
      c.onSpine_passes owner hv ((c.mem_preds_flow owner).mp h) hp hu hreturn
    exact ⟨d, hd, hon, hlt, (c.mem_preds_flow owner).mpr hd'⟩
  entry_preds := by
    refine List.eq_nil_iff_forall_not_mem.mpr fun u hu => ?_
    rw [entry_flow, mem_preds_flow, mem_flowEdges] at hu
    have h0 : entryId = 0 := rfl
    have h1 : exitId = 1 := rfl
    have h2 : failureId = 2 := rfl
    have hs : c.sinkId = 3 + c.size := rfl
    rcases hu with hu | ⟨-, hu⟩ | ⟨-, hu⟩ | ⟨-, hu⟩
    · have := edges_target_outside hu
      lia
    · lia
    · lia
    · lia
  live := by
    intro p i hp
    have hl := c.linked_flow owner
    rw [entry_flow] at hp
    have hi : i ≤ c.sinkId := by
      rcases hp.lastEdge with ⟨rfl, -⟩ | ⟨q, j, -, hj, -⟩
      · exact Nat.zero_le _
      · have := Flow.lt_size_of_mem_preds (hl.mem_iff.mp hj)
        rw [size_flow] at this
        exact Nat.le_of_lt_succ this
    have hdead := c.dead_flow_iff owner hi
    rw [Bool.eq_false_iff]
    exact fun h => hdead.mp h ⟨p, hp⟩

end Code

end ComponentAudit
