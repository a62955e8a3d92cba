import ComponentAudit.Proofs.Exploration
import ComponentAudit.Proofs.Flow.Paths

set_option autoImplicit false

/-! # Graphs built call by call

A graph comes from calls that add an instruction or an edge, in any order, as long as an edge joins
instructions that are there by then. Edges may be added twice and may close circles. When the graph
is complete, the instructions that the entry does not reach are marked as dead.

The marking is an exploration whose items are instructions (`Flow.sweep`): the successors of an
instruction become pending without a look at whether they are marked already.

Main statement: `Flow.dead_iff_out_of_reach`.
-/

namespace ComponentAudit.Flow

/-- A call that adds to a graph. -/
inductive Call where
  | push (op : Op) (element : Option NodeId)
  | connect (start stop : InstrId)
deriving DecidableEq

namespace Call

/-- The instructions that a call is made with. -/
def subjects : Call → List InstrId
  | push .. => []
  | connect start stop => [start, stop]

/-- The graph after a call. -/
def perform (f : Flow) : Call → Flow
  | push op element => f.push op element
  | connect start stop => f.connect start stop

end Call

/-- The graph after calls, made in order. -/
def performAll (f : Flow) (calls : List Call) : Flow := calls.foldl Call.perform f

/-- Whether calls are made with instructions that are in the graph by then. -/
def Proper (f : Flow) : List Call → Prop
  | [] => True
  | call :: calls => (∀ i ∈ call.subjects, i < f.size) ∧ (call.perform f).Proper calls

instance decidableProper : (f : Flow) → (calls : List Call) → Decidable (f.Proper calls)
  | _, [] => isTrue trivial
  | f, call :: calls =>
    haveI := decidableProper (call.perform f) calls
    inferInstanceAs (Decidable (_ ∧ _))

variable {f : Flow} {calls : List Call}

/-! ## Edges -/

/-- Every edge is entered at both of its ends, once at each. -/
structure Tidy (f : Flow) : Prop extends Linked f where
  nodup_succs : ∀ i, (f.succs i).Nodup
  nodup_preds : ∀ i, (f.preds i).Nodup

theorem nodup_addOnce {xs : List InstrId} (h : xs.Nodup) (x : InstrId) : (addOnce xs x).Nodup := by
  unfold addOnce
  split
  · exact h
  · next hx =>
    rw [List.nodup_append_comm]
    exact List.nodup_cons.mpr ⟨hx, h⟩

theorem tidy_empty (owner : NodeId) : Tidy { owner } :=
  ⟨linked_empty owner, by simp [succs, instr], by simp [preds, instr]⟩

/-- **One call** keeps the edges in order. -/
theorem Tidy.perform (h : f.Tidy) {call : Call} (hcall : ∀ i ∈ call.subjects, i < f.size) :
    (call.perform f).Tidy := by
  cases call with
  | push op element =>
      refine ⟨h.toLinked.push op element, fun i => ?_, fun i => ?_⟩
      · rw [Call.perform, succs_push]
        exact h.nodup_succs i
      · rw [Call.perform, preds_push]
        exact h.nodup_preds i
  | connect start stop =>
      have hstart : start < f.size := hcall start (by simp [Call.subjects])
      have hstop : stop < f.size := hcall stop (by simp [Call.subjects])
      refine ⟨h.toLinked.connect hstart hstop, fun i => ?_, fun i => ?_⟩
      · rw [Call.perform, succs_connect f hstart]
        split
        · exact nodup_addOnce (h.nodup_succs i) stop
        · exact h.nodup_succs i
      · rw [Call.perform, preds_connect f hstop]
        split
        · exact nodup_addOnce (h.nodup_preds i) start
        · exact h.nodup_preds i

theorem Tidy.performAll (h : f.Tidy) (hcalls : f.Proper calls) : (f.performAll calls).Tidy := by
  induction calls generalizing f with
  | nil => exact h
  | cons call calls ih => exact ih (h.perform hcalls.1) hcalls.2

theorem mem_succs_perform {call : Call} (hcall : ∀ i ∈ call.subjects, i < f.size) {a b : InstrId} :
    b ∈ (call.perform f).succs a ↔ b ∈ f.succs a ∨ call = .connect a b := by
  cases call with
  | push op element => simp [Call.perform]
  | connect start stop =>
      rw [Call.perform, succs_connect f (hcall start (by simp [Call.subjects]))]
      by_cases ha : a = start
      · simp [ha, eq_comm]
      · simp [ha, Ne.symm ha]

/-- The edges are those that the calls have added. -/
theorem mem_succs_performAll (hcalls : f.Proper calls) {a b : InstrId} :
    b ∈ (f.performAll calls).succs a ↔ b ∈ f.succs a ∨ Call.connect a b ∈ calls := by
  induction calls generalizing f with
  | nil => simp [performAll]
  | cons call calls ih =>
      have hrest : b ∈ (f.performAll (call :: calls)).succs a ↔
          b ∈ (call.perform f).succs a ∨ Call.connect a b ∈ calls := ih hcalls.2
      rw [hrest, mem_succs_perform hcalls.1, List.mem_cons, or_assoc, eq_comm]

/-! ## Marking -/

/-- The marking of the instructions that can be reached: those that come next are looked at from
the last one on, and there is no answer to be found. -/
def sweep (f : Flow) : Exploration InstrId InstrId Empty where
  node := some
  hit _ := none
  next i := (f.succs i).reverse

theorem leads_sweep_iff {a b : InstrId} : f.sweep.Leads a b ↔ b ∈ f.succs a := by
  simp [Exploration.Leads, sweep]

theorem reflTransGen_leads_sweep_iff {i k : InstrId} :
    Relation.ReflTransGen f.sweep.Leads i k ↔ f.Reaches i k := by
  constructor
  · intro h
    induction h with
    | refl => exact ⟨[i], .stop i⟩
    | tail _ hstep ih =>
        obtain ⟨p, hp⟩ := ih
        exact ⟨_, hp.append (.step (leads_sweep_iff.mp hstep) (.stop _))⟩
  · rintro ⟨p, hp⟩
    induction hp with
    | stop i => exact .refl
    | step hstep _ ih => exact .head (leads_sweep_iff.mpr hstep) ih

/-- What the marking can reach is what paths lead to. -/
theorem reaches_sweep_iff {entry i : InstrId} :
    f.sweep.Reaches [entry] i ↔ f.Reaches entry i := by
  rw [← reflTransGen_leads_sweep_iff]
  simp [Exploration.Reaches, sweep]

theorem Linked.lt_size_of_path (hf : f.Linked) {i k : InstrId} {p : List InstrId}
    (hp : f.Path i p k) (hi : i < f.size) : k < f.size := by
  induction hp with
  | stop i => exact hi
  | step hstep _ ih => exact ih (lt_size_of_mem_preds (hf.mem_iff.mp hstep))

/-- **The marking ends** with the instructions that paths from the entry lead to. -/
theorem Linked.exists_run_sweep (hf : f.Linked) {entry : InstrId} (he : entry < f.size) :
    ∃ live, f.sweep.run [] [entry] = some (live, none) ∧
      ∀ i, i ∈ live ↔ f.Reaches entry i := by
  have hall (i : InstrId) (hi : f.sweep.Reaches [entry] i) : i ∈ List.range f.size := by
    obtain ⟨p, hp⟩ := reaches_sweep_iff.mp hi
    exact List.mem_range.mpr (hf.lt_size_of_path hp he)
  obtain ⟨live, r, hrun, houtcome⟩ := Exploration.exists_run hall
  cases houtcome with
  | found _ ha => cases ha
  | exhausted hseen _ => exact ⟨live, hrun, fun i => (hseen i).trans reaches_sweep_iff⟩

/-- **Dead instructions are those out of reach, in every graph.** Whatever calls build a graph, the
marking of what the entry reaches ends, and exactly the instructions without a mark are dead, which
are those that no path from the entry leads to. The lists of successors and of predecessors hold the
edges that were added, each of them once. -/
theorem dead_iff_out_of_reach (owner : NodeId) {calls : List Call}
    (hcalls : Proper { owner } calls) (entry sink : InstrId)
    (he : entry < (performAll { owner } calls).size) :
    let f := performAll { owner } calls
    let g := f.complete entry sink
    (∃ live, f.sweep.run [] [entry] = some (live, none) ∧
      ∀ i < g.size, ((g.instr i).dead = true ↔ i ∉ live)) ∧
    (∀ i < g.size, ((g.instr i).dead = true ↔ ¬ ∃ p, g.Path entry p i)) ∧
    ∀ a b, (b ∈ g.succs a ↔ a ∈ g.preds b) ∧ (b ∈ g.succs a ↔ Call.connect a b ∈ calls) ∧
      (g.succs a).count b ≤ 1 ∧ (g.preds b).count a ≤ 1 := by
  intro f g
  have htidy : f.Tidy := (tidy_empty owner).performAll hcalls
  have hdead (i : InstrId) (hi : i < g.size) : (g.instr i).dead = true ↔ ¬ f.Reaches entry i :=
    dead_complete_iff htidy.toLinked he (by rwa [size_complete] at hi)
  obtain ⟨live, hrun, hlive⟩ := htidy.toLinked.exists_run_sweep he
  refine ⟨⟨live, hrun, fun i hi => ?_⟩, fun i hi => ?_, fun a b => ?_⟩
  · rw [hlive]
    exact hdead i hi
  · simp only [g, Path.complete_iff]
    exact hdead i hi
  · have hempty : b ∉ ({ owner } : Flow).succs a := by simp [succs, instr]
    simp only [g, succs_complete, preds_complete]
    refine ⟨htidy.mem_iff, ?_, List.nodup_iff_count_le_one.mp (htidy.nodup_succs a) b,
      List.nodup_iff_count_le_one.mp (htidy.nodup_preds b) a⟩
    rw [mem_succs_performAll hcalls, or_iff_right hempty]

/-- Calls that close two circles, add an edge twice, and let an instruction out of reach lead into
the rest. -/
def knot : List Call :=
  [.push .enter none, .push .eval none, .connect 0 1, .connect 1 1, .push .eval none, .connect 1 2,
    .connect 2 1, .connect 0 1, .push .eval none, .connect 3 2, .push .sink none, .connect 2 4]

theorem dead_iff_out_of_reach_knot :
    let g := (performAll { owner := 0 } knot).complete 0 4
    Proper { owner := 0 } knot ∧ 0 < (performAll { owner := 0 } knot).size ∧
      (∃ live, (performAll { owner := 0 } knot).sweep.run [] [0] = some (live, none) ∧ 3 ∉ live) ∧
      (¬ ∃ p, g.Path 0 p 3) ∧ (∃ p, g.Path 0 p 4) ∧ (g.succs 0).count 1 ≤ 1 ∧ 3 ∈ g.preds 2 := by
  have hcalls : Proper { owner := 0 } knot := by decide +kernel
  have hsize : (performAll { owner := 0 } knot).size = 5 := by decide +kernel
  intro g
  have hflags : (g.instr 3).dead = true ∧ (g.instr 4).dead = false := by decide +kernel
  have hg : g.size = 5 := by rw [size_complete, hsize]
  obtain ⟨⟨live, hrun, hlive⟩, hpath, hedges⟩ :=
    dead_iff_out_of_reach 0 hcalls 0 4 (by rw [hsize]; decide)
  refine ⟨hcalls, by rw [hsize]; decide, ⟨live, hrun, ?_⟩, ?_, ?_, (hedges 0 1).2.2.1, ?_⟩
  · exact (hlive 3 (by rw [hg]; decide)).mp hflags.1
  · exact (hpath 3 (by rw [hg]; decide)).mp hflags.1
  · by_contra hnone
    have hdead := (hpath 4 (by rw [hg]; decide)).mpr hnone
    rw [hflags.2] at hdead
    cases hdead
  · exact (hedges 3 2).1.mp ((hedges 3 2).2.1.mpr (by decide))

end ComponentAudit.Flow
