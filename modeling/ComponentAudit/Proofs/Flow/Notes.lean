import ComponentAudit.Proofs.Flow.Spine

set_option autoImplicit false

/-! # The parts of a piece of code in its graph

What is said about all parts of a piece of code (`Code.parts`) can be read in its graph: every
instruction other than a jump is a part, the graph notes which instruction produced the value of
an expression, and without a loop among the parts the edges lead forward.

Main statements: `Code.valueAt?_flow`. When all the code noted for an expression is one and the
same instruction, the graph finds an instruction of that kind for it. `Code.rank_lt`. The edges of
code without loops respect an order.
-/

namespace ComponentAudit

namespace Code

/-- A piece of code with all the code inside it. -/
def parts (c : Code) : List Code :=
  c :: match c with
    | .seq a b | .branch _ a b | .loop _ a b => a.parts ++ b.parts
    | .value _ a => a.parts
    | .skip | .step _ _ | .leave _ _ => []

@[simp] theorem mem_parts_self (c : Code) : c ∈ c.parts := by
  cases c <;> simp [parts]

theorem mem_parts_trans {c d e : Code} (hd : d ∈ c.parts) (he : e ∈ d.parts) : e ∈ c.parts := by
  induction c with
  | skip | step | leave =>
      rw [parts, List.mem_singleton] at hd
      exact hd ▸ he
  | value n a ih =>
      rw [parts, List.mem_cons] at hd
      rcases hd with rfl | hd
      · exact he
      · exact List.mem_cons_of_mem _ (ih hd)
  | seq a b iha ihb | branch _ a b iha ihb | loop _ a b iha ihb =>
      rw [parts, List.mem_cons, List.mem_append] at hd
      rcases hd with rfl | hd | hd
      · exact he
      · exact List.mem_cons_of_mem _ (List.mem_append_left _ (iha hd))
      · exact List.mem_cons_of_mem _ (List.mem_append_right _ (ihb hd))

/-- Instructions other than jumps are parts of the code. -/
theorem step_mem_parts {c : Code} {op : Op} {e : NodeId} (h : (op, e) ∈ c.nodes)
    (hop : op ≠ .jump) : .step op e ∈ c.parts := by
  induction c with
  | skip => cases h
  | step => simpa [nodes, parts, eq_comm] using h
  | leave => simp [nodes, hop] at h
  | value n a ih => exact List.mem_cons_of_mem _ (ih h)
  | seq a b iha ihb =>
      rw [parts, List.mem_cons, List.mem_append]
      exact .inr ((List.mem_append.mp h).imp iha ihb)
  | branch e' a b iha ihb =>
      rw [parts, List.mem_cons, List.mem_append]
      simp only [nodes, List.mem_append, List.mem_singleton, Prod.mk.injEq, hop, false_and,
        or_false] at h
      exact .inr (h.imp iha ihb)
  | loop e' a b iha ihb =>
      rw [parts, List.mem_cons, List.mem_append]
      simp only [nodes, List.mem_cons, List.mem_append, Prod.mk.injEq, hop, false_and,
        false_or] at h
      exact .inr (h.imp iha ihb)

/-! ## The values that are noted -/

/-- The notes that a piece of code adds on which instruction produced the value of an expression,
the latest first. -/
def notes : Code → Option InstrId → InstrId → List (NodeId × InstrId)
  | .skip, _, _ | .step _ _, _, _ | .leave _ _, _, _ => []
  | .seq a b, current, next => b.notes (a.out current next) (next + a.size) ++ a.notes current next
  | .value n a, current, next =>
    (a.out current next).toList.map (n, ·) ++ a.notes current next
  | .branch _ a b, current, next => b.notes current (next + a.size) ++ a.notes current next
  | .loop _ a b, _, next =>
    b.notes (a.out (some next) (next + 1)) (next + 1 + a.size + 1) ++
      a.notes (some next) (next + 1)

end Code

namespace Lowering

theorem values_link (l : Lowering) (start : Option InstrId) (stop : InstrId) :
    (l.link start stop).flow.values = l.flow.values := by
  cases start <;> rfl

theorem values_perform (l : Lowering) (op : Op) (e : NodeId) :
    (l.perform op e).flow.values = l.flow.values := values_link ..

theorem values_goTo (l : Lowering) (target : InstrId) :
    (l.goTo target).flow.values = l.flow.values := values_link ..

theorem values_record (l : Lowering) (n : NodeId) :
    (l.record n).flow.values = l.current.toList.map (n, ·) ++ l.flow.values := by
  unfold record
  cases l.current <;> rfl

end Lowering

namespace Code

/-- Lowering adds the notes of the code. -/
theorem values_lower (c : Code) (ends : Option LoopEnds) (l : Lowering) (hl : l.Ready)
    (he : LoopEnds.Within ends l.next) (h3 : 3 ≤ l.next) :
    (c.lower ends l).flow.values = c.notes l.current l.next ++ l.flow.values := by
  induction c generalizing ends l with
  | skip => rfl
  | step op e => exact l.values_perform op e
  | leave e way =>
      simp only [lower, notes, List.nil_append]
      split
      · rw [Lowering.values_goTo, Lowering.values_perform]
      · exact l.values_perform .jump e
  | value n a ih =>
      have h₁ := a.lower_extends ends l hl he h3
      rw [lower, Lowering.values_record, h₁.current_eq, ih ends l hl he h3, notes,
        List.append_assoc]
  | seq a b iha ihb =>
      have h₁ := a.lower_extends ends l hl he h3
      have n₁ : (a.lower ends l).next = l.next + a.size := h₁.next_eq
      rw [lower, ihb ends _ h₁.ready (he.mono (by lia)) (by lia), iha ends l hl he h3,
        h₁.current_eq, n₁, notes, List.append_assoc]
  | branch e a b iha ihb =>
      have h₁ := a.lower_extends ends l hl he h3
      have n₁ : (a.lower ends l).next = l.next + a.size := h₁.next_eq
      have h₂ := (a.lower ends l).resumeAt_extends l.current
        (fun i hi => by have := hl i hi; lia)
      set resumed := (a.lower ends l).resumeAt l.current
      have n₂ : resumed.next = l.next + a.size := n₁
      have hresumed : resumed.flow.values = a.notes l.current l.next ++ l.flow.values :=
        iha ends l hl he h3
      have hb := ihb ends resumed h₂.ready (he.mono (by lia)) (by lia)
      rw [n₂, hresumed, show resumed.current = l.current from rfl] at hb
      calc ((branch e a b).lower ends l).flow.values = (b.lower ends resumed).flow.values :=
            (Lowering.values_link ..).trans (Lowering.values_link ..)
        _ = _ := by rw [hb, notes, List.append_assoc]
  | loop e a b iha ihb =>
      have h₁ := hl.enterLoop e
      set atStart := ((l.place .jump e).goTo l.next).resumeAt (some l.next)
      have n₁ : atStart.next = l.next + 1 := h₁.next_eq
      have hstart : atStart.flow.values = l.flow.values := Lowering.values_goTo ..
      have ha := iha ends atStart h₁.ready (he.mono (by lia)) (by lia)
      have h₂ := a.lower_extends ends atStart h₁.ready (he.mono (by lia)) (by lia)
      rw [n₁, h₁.current_eq, hstart] at ha
      rw [n₁, h₁.current_eq] at h₂
      set tested := a.lower ends atStart
      have n₂ : tested.next = l.next + 1 + a.size := n₁ ▸ h₂.next_eq
      have h₃ := h₂.ready.placeLinked .jump e h₂.ready
      set inside := (tested.place .jump e).link tested.current tested.next
      have n₃ : inside.next = tested.next + 1 := h₃.next_eq
      have hinside : inside.flow.values = tested.flow.values := Lowering.values_link ..
      have hb := ihb (some { again := l.next, done := tested.next }) inside h₃.ready
        (by intro ends' hends'; cases hends'; constructor <;> lia) (by lia)
      rw [n₃, h₃.current_eq, h₂.current_eq, n₂, hinside, ha] at hb
      calc ((loop e a b).lower ends l).flow.values
          = (b.lower (some { again := l.next, done := tested.next }) inside).flow.values :=
            Lowering.values_goTo ..
        _ = _ := by rw [n₂, hb, notes, List.append_assoc]

/-- The notes in the graph of a body are those of its code. -/
theorem values_flow (c : Code) (owner : NodeId) :
    (c.flow owner).values = c.notes (some entryId) 3 := by
  have h := c.values_lower none (Lowering.start owner) (Lowering.ready_start owner)
    (LoopEnds.within_none _) (Nat.le_refl 3)
  calc (c.flow owner).values = (c.openFlow owner).values := by
        rw [flow_eq_complete, Flow.complete]
    _ = (c.lower none (Lowering.start owner)).flow.values := by
        rw [openFlow, Flow.connect, Flow.connect, Flow.push, Lowering.values_goTo]
    _ = c.notes (some entryId) 3 := h.trans (List.append_nil _)

/-- The instructions of a part stand at some distance from the start of the whole. -/
theorem getElem?_nodes_append {a b : Code} {k : Nat} {x : Op × NodeId}
    (h : b.nodes[k]? = some x) (rest : List (Op × NodeId)) :
    (a.nodes ++ (b.nodes ++ rest))[a.size + k]? = some x := by
  have hk : k < b.nodes.length := (List.getElem?_eq_some_iff.mp h).1
  rw [size, List.getElem?_append_right (Nat.le_add_right _ _), Nat.add_sub_cancel_left,
    List.getElem?_append_left hk, h]

/-- The last instruction of a piece of code, if there is one that control always passes last. -/
def ending? : Code → Option (Op × NodeId)
  | .step op e => some (op, e)
  | .seq _ b => b.ending?
  | .value _ a => a.ending?
  | .branch e _ _ => some (.jump, e)
  | .skip | .leave _ _ | .loop _ _ _ => none

/-- After the last instruction control falls through from there. -/
theorem out_of_ending? {c : Code} {x : Op × NodeId} (h : c.ending? = some x)
    (current : Option InstrId) (next : InstrId) :
    ∃ k, c.out current next = some (next + k) ∧ c.nodes[k]? = some x := by
  induction c generalizing current next with
  | skip | leave | loop => cases h
  | step op e => exact ⟨0, rfl, h⟩
  | value n a ih => exact ih h current next
  | seq a b _ ih =>
      obtain ⟨k, hk, hx⟩ := ih h (a.out current next) (next + a.size)
      refine ⟨a.size + k, ?_, by simpa [nodes] using getElem?_nodes_append hx []⟩
      rw [out, hk]
      exact congrArg some (by lia)
  | branch e a b =>
      obtain rfl := Option.some.inj h
      refine ⟨a.size + b.size, ?_, ?_⟩
      · rw [out]
        exact congrArg some (by lia)
      · simp [nodes, size]

/-- A note stems from code for the value, and where that has a last instruction, the note says
where it is. -/
theorem exists_of_mem_notes {c : Code} {current : Option InstrId} {next i : InstrId} {n : NodeId}
    (h : (n, i) ∈ c.notes current next) : ∃ a, .value n a ∈ c.parts ∧
      ∀ x, a.ending? = some x → ∃ k, i = next + k ∧ c.nodes[k]? = some x := by
  induction c generalizing current next with
  | skip | step | leave => cases h
  | value m a ih =>
      rcases List.mem_append.mp h with h | h
      · obtain ⟨j, hj, heq⟩ := List.mem_map.mp h
        cases heq
        refine ⟨a, mem_parts_self _, ?_⟩
        intro x hx
        obtain ⟨k, hk, hnode⟩ := out_of_ending? hx current next
        rw [Option.mem_toList, hk] at hj
        exact ⟨k, (Option.some.inj hj).symm, hnode⟩
      · obtain ⟨b, hb, hnode⟩ := ih h
        exact ⟨b, List.mem_cons_of_mem _ hb, hnode⟩
  | seq a b iha ihb =>
      rcases List.mem_append.mp h with h | h
      · obtain ⟨d, hd, hnode⟩ := ihb h
        refine ⟨d, List.mem_cons_of_mem _ (List.mem_append_right _ hd), fun x hend => ?_⟩
        obtain ⟨k, hk, hx⟩ := hnode x hend
        exact ⟨a.size + k, by lia, by simpa [nodes] using getElem?_nodes_append hx []⟩
      · obtain ⟨d, hd, hnode⟩ := iha h
        refine ⟨d, List.mem_cons_of_mem _ (List.mem_append_left _ hd), fun x hend => ?_⟩
        obtain ⟨k, hk, hx⟩ := hnode x hend
        exact ⟨k, hk, by simpa [nodes] using getElem?_nodes_append (a := skip) hx b.nodes⟩
  | branch e' a b iha ihb =>
      rcases List.mem_append.mp h with h | h
      · obtain ⟨d, hd, hnode⟩ := ihb h
        refine ⟨d, List.mem_cons_of_mem _ (List.mem_append_right _ hd), fun x hend => ?_⟩
        obtain ⟨k, hk, hx⟩ := hnode x hend
        exact ⟨a.size + k, by lia, by simpa [nodes] using getElem?_nodes_append hx [(.jump, e')]⟩
      · obtain ⟨d, hd, hnode⟩ := iha h
        refine ⟨d, List.mem_cons_of_mem _ (List.mem_append_left _ hd), fun x hend => ?_⟩
        obtain ⟨k, hk, hx⟩ := hnode x hend
        exact ⟨k, hk, by simpa [nodes] using
          getElem?_nodes_append (a := skip) hx (b.nodes ++ [(.jump, e')])⟩
  | loop e' a b iha ihb =>
      rcases List.mem_append.mp h with h | h
      · obtain ⟨d, hd, hnode⟩ := ihb h
        refine ⟨d, List.mem_cons_of_mem _ (List.mem_append_right _ hd), fun x hend => ?_⟩
        obtain ⟨k, hk, hx⟩ := hnode x hend
        refine ⟨1 + a.size + 1 + k, by lia, ?_⟩
        have := getElem?_nodes_append (a := .seq (.step .jump e') (.seq a (.step .jump e'))) hx []
        simpa [nodes, Nat.add_assoc] using this
      · obtain ⟨d, hd, hnode⟩ := iha h
        refine ⟨d, List.mem_cons_of_mem _ (List.mem_append_left _ hd), fun x hend => ?_⟩
        obtain ⟨k, hk, hx⟩ := hnode x hend
        refine ⟨1 + k, by lia, ?_⟩
        have := getElem?_nodes_append (a := .step .jump e') hx ((.jump, e') :: b.nodes)
        simpa [nodes] using this

/-- One instruction for a value is noted. -/
theorem exists_mem_notes {c : Code} {n : NodeId} {op : Op} {e : NodeId}
    (h : .value n (.step op e) ∈ c.parts) (current : Option InstrId) (next : InstrId) :
    ∃ i, (n, i) ∈ c.notes current next := by
  induction c generalizing current next with
  | skip | step | leave => simp [parts] at h
  | value m a ih =>
      rcases List.mem_cons.mp h with h | h
      · cases h
        exact ⟨next, List.mem_append_left _ (by simp [out])⟩
      · obtain ⟨i, hi⟩ := ih h current next
        exact ⟨i, List.mem_append_right _ hi⟩
  | seq a b iha ihb | branch _ a b iha ihb | loop _ a b iha ihb =>
      rcases List.mem_append.mp (List.mem_of_ne_of_mem (by simp) h) with h | h
      · obtain ⟨i, hi⟩ := iha h _ _
        exact ⟨i, List.mem_append_right _ hi⟩
      · obtain ⟨i, hi⟩ := ihb h _ _
        exact ⟨i, List.mem_append_left _ hi⟩

/-- The instructions of the code follow the entry and the two exits. -/
theorem instr_flow (c : Code) (owner : NodeId) {k : Nat} {op : Op} {e : NodeId}
    (h : c.nodes[k]? = some (op, e)) :
    ((c.flow owner).instr (3 + k)).op = op ∧ ((c.flow owner).instr (3 + k)).element = some e := by
  have hlt : k < c.nodes.length := (List.getElem?_eq_some_iff.mp h).1
  refine Flow.instr_of_label ?_
  rw [labels_flow, flowLabels, List.append_assoc, List.getElem?_append_right (by simp),
    List.getElem?_append_left (by simpa using hlt)]
  simp [h]

/-- An instruction other than a jump that is neither the entry nor an exit nor the sink is part of
the code. -/
theorem step_of_instr (c : Code) (owner : NodeId) {j : InstrId} (h3 : 3 ≤ j)
    (hop : ((c.flow owner).instr j).op ∉ [.jump, .sink, .eval]) :
    ∃ e, ((c.flow owner).instr j).element = some e ∧
      .step ((c.flow owner).instr j).op e ∈ c.parts := by
  have hlt : j < (c.flow owner).size := by
    refine Nat.lt_of_not_le fun hle => hop ?_
    simp [Flow.instr_eq_default hle]
  have hlabel := (c.flow owner).getElem?_labels j
  rw [if_pos hlt, labels_flow, flowLabels, List.append_assoc,
    List.getElem?_append_right (by simpa using h3)] at hlabel
  have hmem := List.mem_of_getElem? hlabel
  simp only [List.mem_append, List.mem_map, List.mem_singleton, Prod.mk.injEq] at hmem
  rcases hmem with ⟨x, hn, hop', he⟩ | ⟨hsink, -⟩
  · rw [← hop'] at hop ⊢
    exact ⟨x.2, he.symm, step_mem_parts hn (fun h => hop (by simp [h]))⟩
  · exact absurd hsink (fun h => hop (by simp [h]))

/-- The instructions before the code are the entry and the exits. -/
theorem op_flow_of_lt (c : Code) (owner : NodeId) {j : InstrId} (h : j < 3) :
    j = entryId ∧ ((c.flow owner).instr j).op = .enter ∨
      j = exitId ∧ ((c.flow owner).instr j).op = .exit false ∨
      j = failureId ∧ ((c.flow owner).instr j).op = .exit true := by
  have hlabels := c.labels_flow owner
  match j, h with
  | 0, _ => exact .inl ⟨rfl, (Flow.instr_of_label (by rw [hlabels]; rfl)).1⟩
  | 1, _ => exact .inr (.inl ⟨rfl, (Flow.instr_of_label (by rw [hlabels]; rfl)).1⟩)
  | 2, _ => exact .inr (.inr ⟨rfl, (Flow.instr_of_label (by rw [hlabels]; rfl)).1⟩)

/-- An instruction that stores is part of the code. -/
theorem step_of_write {c : Code} {owner : NodeId} {j : InstrId} {place : NodeId}
    {target : Target} {receiver : Option Receiver}
    (h : ((c.flow owner).instr j).op = .write place target receiver) :
    ∃ e, ((c.flow owner).instr j).element = some e ∧
      .step (.write place target receiver) e ∈ c.parts := by
  have h3 : 3 ≤ j := by
    refine Nat.le_of_not_lt fun hlt => ?_
    rcases c.op_flow_of_lt owner hlt with ⟨-, ho⟩ | ⟨-, ho⟩ | ⟨-, ho⟩ <;>
      simp [ho] at h
  rw [← h]
  exact c.step_of_instr owner h3 (by simp [h])

/-- When the code has no exits of its own, only one instruction is the exit for failure. -/
theorem eq_failureId {c : Code} {owner : NodeId} {j : InstrId}
    (hc : ∀ e, .step (.exit true) e ∉ c.parts)
    (h : ((c.flow owner).instr j).isFailure = true) : j = failureId := by
  have hop : ((c.flow owner).instr j).op = .exit true := beq_iff_eq.mp h
  rcases Nat.lt_or_ge j 3 with hlt | hge
  · rcases c.op_flow_of_lt owner hlt with ⟨-, ho⟩ | ⟨-, ho⟩ | ⟨hj, -⟩
    · simp [ho] at hop
    · simp [ho] at hop
    · exact hj
  · obtain ⟨e, -, he⟩ := c.step_of_instr owner hge (by simp [hop])
    exact absurd (hop ▸ he) (hc e)

/-- The instruction that the graph finds for a value is the last one of code for that value. -/
theorem exists_of_valueAt? {c : Code} {owner n : NodeId} {i : InstrId}
    (h : (c.flow owner).valueAt? n = some i) : ∃ a, .value n a ∈ c.parts ∧
      ∀ x, a.ending? = some x → ((c.flow owner).instr i).op = x.1 := by
  have hmem : (n, i) ∈ c.notes (some entryId) 3 := by
    obtain ⟨before, after, hvalues, -⟩ := List.lookup_eq_some_iff.mp h
    rw [← c.values_flow owner, hvalues]
    exact List.mem_append_right _ List.mem_cons_self
  obtain ⟨a, ha, hnode⟩ := exists_of_mem_notes hmem
  refine ⟨a, ha, fun x hx => ?_⟩
  obtain ⟨k, rfl, hk⟩ := hnode x hx
  exact (c.instr_flow owner hk).1

/-- **When the code for a value is always the same instruction, the graph finds it.** -/
theorem valueAt?_flow {c : Code} {n : NodeId} {op : Op} {e : NodeId} (owner : NodeId)
    (h : .value n (.step op e) ∈ c.parts) (hall : ∀ a, .value n a ∈ c.parts → a = .step op e) :
    ∃ i, (c.flow owner).valueAt? n = some i ∧ ((c.flow owner).instr i).op = op := by
  obtain ⟨j, hj⟩ := exists_mem_notes h (some entryId) 3
  rw [← c.values_flow owner] at hj
  have hsome : ((c.flow owner).valueAt? n).isSome = true :=
    List.lookup_isSome_iff.mpr ⟨(n, j), hj, beq_self_eq_true n⟩
  obtain ⟨i, hi⟩ := Option.isSome_iff_exists.mp hsome
  obtain ⟨a, ha, hop⟩ := exists_of_valueAt? hi
  exact ⟨i, hi, hop (op, e) (by rw [hall a ha]; rfl)⟩

/-! ## Code without loops -/

/-- Without loops, control goes on at an instruction with a greater number or leaves the body. -/
theorem edges_forward {c : Code} (hloop : ∀ e a b, .loop e a b ∉ c.parts)
    {current : Option InstrId} {next a b : InstrId} (hc : ComesBefore current next)
    (h : (a, b) ∈ c.edges none current next) : a < b ∨ b = exitId ∨ b = failureId := by
  induction c generalizing current next with
  | skip => cases h
  | step op e =>
      obtain ⟨hcur, rfl⟩ := mem_edges_step.mp h
      exact .inl (hc a hcur)
  | value n c ih =>
      exact ih (fun e a b hm => hloop e a b (List.mem_cons_of_mem _ hm)) hc h
  | leave e way =>
      rcases mem_edges_leave.mp h with ⟨hcur, rfl⟩ | ⟨-, htarget⟩
      · exact .inl (hc a hcur)
      · cases way <;> simp_all [Leave.target?]
  | seq c d ihc ihd =>
      rcases mem_edges_seq.mp h with h | h
      · exact ihc (fun e a b hm => hloop e a b
          (List.mem_cons_of_mem _ (List.mem_append_left _ hm))) hc h
      · exact ihd (fun e a b hm => hloop e a b
          (List.mem_cons_of_mem _ (List.mem_append_right _ hm))) (hc.out c) h
  | branch e c d ihc ihd =>
      have hc' : ComesBefore current (next + c.size) := hc.mono (Nat.le_add_right _ _)
      rcases mem_edges_branch.mp h with h | h | ⟨ha, hb⟩ | ⟨ha, hb⟩
      · exact ihc (fun e a b hm => hloop e a b
          (List.mem_cons_of_mem _ (List.mem_append_left _ hm))) hc h
      · exact ihd (fun e a b hm => hloop e a b
          (List.mem_cons_of_mem _ (List.mem_append_right _ hm))) hc' h
      · have := hc.out c a ha
        exact .inl (by lia)
      · have := hc'.out d a ha
        exact .inl (by lia)
  | loop e c d => exact absurd (mem_parts_self _) (hloop e c d)

/-- A place in an order that all edges of a body without loops respect: the exits come after the
code, and the sink is last. -/
def rank (c : Code) (i : InstrId) : Nat :=
  if i = exitId ∨ i = failureId then c.sinkId else if i = c.sinkId then c.sinkId + 1 else i

theorem rank_lt {c : Code} (hloop : ∀ e a b, .loop e a b ∉ c.parts) {a b : InstrId}
    (h : (a, b) ∈ c.flowEdges) : c.rank a < c.rank b := by
  have h0 : entryId = 0 := rfl
  have h1 : exitId = 1 := rfl
  have h2 : failureId = 2 := rfl
  have hs : c.sinkId = 3 + c.size := rfl
  have hinside {i : InstrId} (hi : i = entryId ∨ 3 ≤ i ∧ i < 3 + c.size) :
      c.rank i = i ∧ i < c.sinkId := by
    unfold rank
    rw [if_neg (by lia), if_neg (by lia)]
    exact ⟨rfl, by lia⟩
  have hexit {i : InstrId} (hi : i = exitId ∨ i = failureId) : c.rank i = c.sinkId := if_pos hi
  have hsink : c.rank c.sinkId = c.sinkId + 1 := by
    unfold rank
    rw [if_neg (by lia), if_pos rfl]
  have hsource {i : InstrId} (hi : some entryId = some i ∨ 3 ≤ i ∧ i < 3 + c.size) :
      c.rank i = i ∧ i < c.sinkId := hinside (hi.imp (fun h => (Option.some.inj h).symm) id)
  rcases mem_flowEdges.mp h with h | ⟨hout, rfl⟩ | ⟨rfl, rfl⟩ | ⟨rfl, rfl⟩
  · have ha := hsource (edges_source h)
    by_cases hb : b = exitId ∨ b = failureId
    · rw [ha.1, hexit hb]
      exact ha.2
    · have hlt : a < b := (edges_forward hloop entry_before h).resolve_right hb
      rcases edges_target h with hb' | ⟨way, hway⟩
      · rw [ha.1, (hinside (.inr hb')).1]
        exact hlt
      · cases way <;> simp_all [Leave.target?]
  · have ha := hsource (out_cases hout)
    rw [ha.1, hexit (.inl rfl)]
    exact ha.2
  · rw [hexit (.inl rfl), hsink]
    exact Nat.lt_succ_self _
  · rw [hexit (.inr rfl), hsink]
    exact Nat.lt_succ_self _

/-! ## Returns -/

theorem exists_of_returns {c : Code} (h : c.returns = true) :
    ∃ e, .leave e .returns ∈ c.parts := by
  induction c with
  | skip | step => cases h
  | leave e way =>
      obtain rfl : way = .returns := by simpa [returns] using h
      exact ⟨e, mem_parts_self _⟩
  | value n a ih =>
      obtain ⟨e, he⟩ := ih h
      exact ⟨e, List.mem_cons_of_mem _ he⟩
  | seq a b iha ihb | branch _ a b iha ihb | loop _ a b iha ihb =>
      rcases Bool.or_eq_true_iff.mp h with h | h
      · obtain ⟨e, he⟩ := iha h
        exact ⟨e, List.mem_cons_of_mem _ (List.mem_append_left _ he)⟩
      · obtain ⟨e, he⟩ := ihb h
        exact ⟨e, List.mem_cons_of_mem _ (List.mem_append_right _ he)⟩

/-- Whether no loop of a piece of code has a return in it. -/
def LoopsHold (c : Code) : Prop :=
  ∀ e a b, .loop e a b ∈ c.parts → a.returns = false ∧ b.returns = false

theorem LoopsHold.mono {c d : Code} (h : c.LoopsHold) (hd : d ∈ c.parts) : d.LoopsHold :=
  fun e a b hl => h e a b (mem_parts_trans hd hl)

theorem LoopsHold.testsHold {c : Code} (h : c.LoopsHold) : c.testsHold = true := by
  induction c with
  | skip | step | leave => rfl
  | value n a ih => exact ih (h.mono (by simp [parts]))
  | seq a b iha ihb | branch _ a b iha ihb =>
      exact Bool.and_eq_true_iff.mpr
        ⟨iha (h.mono (by simp [parts])), ihb (h.mono (by simp [parts]))⟩
  | loop e a b => simp [Code.testsHold, (h e a b (mem_parts_self _)).1]

theorem LoopsHold.not_loopReturnAt {c : Code} (h : c.LoopsHold) (next i : InstrId) :
    ¬ c.loopReturnAt next i := by
  induction c generalizing next with
  | skip | step | leave => exact id
  | value n a ih => exact ih (h.mono (by simp [parts])) next
  | seq a b iha ihb | branch _ a b iha ihb =>
      rintro (hi | hi)
      · exact iha (h.mono (by simp [parts])) _ hi
      · exact ihb (h.mono (by simp [parts])) _ hi
  | loop e a b =>
      have hl := h e a b (mem_parts_self _)
      rintro (hi | hi)
      · exact Bool.eq_false_iff.mp hl.1 (returns_of_returnAt hi)
      · exact Bool.eq_false_iff.mp hl.2 (returns_of_returnAt hi)

end Code

end ComponentAudit
