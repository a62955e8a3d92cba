import ComponentAudit.Proofs.Flow.Spine

set_option autoImplicit false

/-! # The edges that close a loop

In the graph of structured code an edge either goes on, in an order of the instructions in which
the place after a loop comes behind its body (`Code.place`), or it goes back to the start of a loop
that it comes from. Nothing gets into a loop but through its start, so every path to the end of such
an edge has passed its target (`Flow.Closes`).

Main statement: `Code.level_lt_or_closes`.
-/

namespace ComponentAudit

namespace Flow

variable {f : Flow}

/-- Whether an edge closes a loop: control gets to it, and has always passed its target before. -/
structure Closes (f : Flow) (u g : InstrId) : Prop where
  edge : g ∈ f.succs u
  live : f.Reaches f.entry u
  passed : ∀ p, f.Path f.entry p u → g ∈ p

theorem Path.exists_eq_cons {i k : InstrId} {p : List InstrId} (hp : f.Path i p k) :
    ∃ q, p = i :: q := by
  cases hp
  · exact ⟨[], rfl⟩
  · exact ⟨_, rfl⟩

/-- A path into a set with one way in passes that way. -/
theorem Path.mem_of_gate {S : InstrId → Prop} {g i k : InstrId} {p : List InstrId}
    (hp : f.Path i p k) (hgate : ∀ x y, y ∈ f.succs x → S y → y = g ∨ S x) (hi : ¬ S i)
    (hk : S k) : g ∈ p := by
  induction hp with
  | stop i => exact absurd hk hi
  | @step i j k p hj hp ih =>
      by_cases hS : S j
      · rcases hgate i j hj hS with rfl | h
        · obtain ⟨q, rfl⟩ := hp.exists_eq_cons
          exact List.mem_cons_of_mem i List.mem_cons_self
        · exact absurd h hi
      · exact List.mem_cons_of_mem i (ih hS hk)

/-- What is on a path can reach its end. -/
theorem Path.reaches_of_mem {i k x : InstrId} {p : List InstrId} (hp : f.Path i p k) (hx : x ∈ p) :
    f.Reaches x k := by
  induction hp with
  | stop i =>
      rw [List.mem_singleton.mp hx]
      exact ⟨[i], .stop i⟩
  | step hj hp ih =>
      rcases List.mem_cons.mp hx with rfl | hx
      · exact ⟨_, .step hj hp⟩
      · exact ih hx

/-- A path does not leave a set that no edge leaves. -/
theorem Path.mem_of_closed {S : InstrId → Prop} {i k : InstrId} {p : List InstrId}
    (hp : f.Path i p k) (hS : ∀ x, S x → ∀ y ∈ f.succs x, S y) (hi : S i) : S k := by
  induction hp with
  | stop => exact hi
  | step hj _ ih => exact ih (hS _ hi _ hj)

/-- Beyond the entry, what can be reached can be reached by an edge that closes no loop. -/
theorem exists_not_closes {v : InstrId} (hv : f.Reaches f.entry v) (hne : v ≠ f.entry) :
    ∃ u, v ∈ f.succs u ∧ f.Reaches f.entry u ∧ ¬ f.Closes u v := by
  obtain ⟨p, hp⟩ := hv
  -- a shortest path does not come by the place where it ends
  induction hn : p.length using Nat.strong_induction_on generalizing p with
  | _ n ih =>
      rcases hp.lastEdge with ⟨h, -⟩ | ⟨q, u, hq, hu, rfl⟩
      · exact absurd h hne
      · by_cases hv : v ∈ q
        · obtain ⟨r, hr, hpre⟩ := hq.upTo hv
          have hle := hpre.length_le
          rw [List.length_append, List.length_singleton] at hn
          exact ih r.length (by omega) r hr rfl
        · exact ⟨u, hu, ⟨q, hq⟩, fun h => hv (h.passed q hq)⟩

theorem Closes.live_target {u g : InstrId} (h : f.Closes u g) : f.Reaches f.entry g := by
  obtain ⟨q, hq⟩ := h.live
  obtain ⟨r, hr, -⟩ := hq.upTo (h.passed q hq)
  exact ⟨r, hr⟩

/-- Whether an instruction belongs to the loop that an edge from `u` to `g` closes: it is the start,
or leads to the end without passing the start. -/
def InLoop (f : Flow) (u g x : InstrId) : Prop := x = g ∨ ∃ p, f.Path x p u ∧ g ∉ p

theorem InLoop.pred {u g x y : InstrId} (h : f.InLoop u g x) (hne : x ≠ g) (hy : x ∈ f.succs y) :
    f.InLoop u g y := by
  obtain ⟨p, hp, hg⟩ := h.resolve_left hne
  by_cases hyg : y = g
  · exact .inl hyg
  · refine .inr ⟨y :: p, .step hy hp, ?_⟩
    rw [List.mem_cons, not_or]
    exact ⟨Ne.symm hyg, hg⟩

/-- Control gets into a loop only through its start. -/
theorem Closes.reaches_of_inLoop {u g x : InstrId} (h : f.Closes u g) (hx : f.InLoop u g x)
    (hlive : f.Reaches f.entry x) : f.Reaches g x := by
  rcases hx with rfl | ⟨p, hp, hg⟩
  · exact ⟨_, .stop _⟩
  · obtain ⟨q, hq⟩ := hlive
    obtain ⟨r, rfl⟩ := hp.exists_eq_cons
    rcases List.mem_append.mp (h.passed _ (hq.append hp)) with hmem | hmem
    · exact hq.reaches_of_mem hmem
    · exact absurd (List.mem_cons_of_mem x hmem) hg

end Flow

namespace Code

/-! ## Loops -/

/-- Whether an instruction belongs to a loop with the given start. -/
def around : Code → InstrId → InstrId → InstrId → Prop
  | .seq a b, next, g, u | .branch _ a b, next, g, u =>
    a.around next g u ∨ b.around (next + a.size) g u
  | .value _ c, next, g, u => c.around next g u
  | .loop _ c b, next, g, u =>
    (g = next ∧ next ≤ u ∧ u < next + (c.size + b.size + 2)) ∨ c.around (next + 1) g u ∨
      b.around (next + 1 + c.size + 1) g u
  | _, _, _, _ => False

theorem around_range {c : Code} {next g u : InstrId} (h : c.around next g u) :
    next ≤ u ∧ u < next + c.size := by
  induction c generalizing next with
  | skip | step | leave => exact h.elim
  | seq a b iha ihb =>
      rw [size_seq]
      rcases h with h | h
      · have := iha h
        lia
      · have := ihb h
        lia
  | value n c ih => exact ih h
  | branch e a b iha ihb =>
      rw [size_branch]
      rcases h with h | h
      · have := iha h
        lia
      · have := ihb h
        lia
  | loop e c b ihc ihb =>
      rw [size_loop]
      rcases h with ⟨-, h⟩ | h | h
      · exact h
      · have := ihc h
        lia
      · have := ihb h
        lia

/-- The ends of a loop come before its body. -/
theorem within_body (c : Code) (next : InstrId) :
    LoopEnds.Within (some { again := next, done := next + 1 + c.size })
      (next + 1 + c.size + 1) := by
  intro e h
  cases h
  constructor
  · show next < _
    lia
  · show next + 1 + c.size < _
    lia

/-- **Nothing gets into a loop but through its start.** -/
theorem around_step {c : Code} {ends : Option LoopEnds} {current : Option InstrId}
    {next g x y : InstrId} (h3 : 3 ≤ next) (he : LoopEnds.Within ends next)
    (h : (x, y) ∈ c.edges ends current next) (hy : c.around next g y) :
    y = g ∨ c.around next g x := by
  -- What is in a loop lies in a single part, so an edge to there belongs to that part.
  induction c generalizing ends current next with
  | skip | step | leave => exact hy.elim
  | value n c ih => exact ih h3 he h hy
  | seq a b iha ihb =>
      have hr := around_range hy
      rcases mem_edges_seq.mp h with h | h
      · have hin := edges_inside h3 he h hr.1
        rcases hy with hy | hy
        · exact (iha h3 he h hy).imp_right .inl
        · have := around_range hy
          lia
      · have hin := edges_inside h3 he h hr.1
        rcases hy with hy | hy
        · have := around_range hy
          lia
        · exact (ihb (by lia) (he.mono (Nat.le_add_right _ _)) h hy).imp_right .inr
  | branch e a b iha ihb =>
      have hwithin : LoopEnds.Within ends (next + a.size) := he.mono (Nat.le_add_right _ _)
      rcases hy with hy | hy
      · have hr := around_range hy
        rcases mem_edges_branch.mp h with h | h | ⟨-, h⟩ | ⟨-, h⟩
        · exact (iha h3 he h hy).imp_right .inl
        · have := edges_inside h3 he h hr.1
          lia
        · lia
        · lia
      · have hr := around_range hy
        rcases mem_edges_branch.mp h with h | h | ⟨-, h⟩ | ⟨-, h⟩
        · have := edges_inside h3 he h (by lia)
          lia
        · exact (ihb (by lia) hwithin h hy).imp_right .inr
        · lia
        · lia
  | loop e c b ihc ihb =>
      rcases hy with ⟨rfl, -⟩ | hy | hy
      · rcases edges_source_loop h with ⟨-, h⟩ | hx
        · exact .inl h
        · rw [size_loop] at hx
          exact .inr (.inl ⟨rfl, hx⟩)
      · have hr := around_range hy
        exact (ihc (by lia) (he.mono (Nat.le_succ _)) (edges_into_condition h3 h hr.1 hr.2)
          hy).imp_right fun h => .inr (.inl h)
      · have hr := around_range hy
        rcases mem_edges_loop.mp h with ⟨-, h⟩ | h | ⟨-, h⟩ | h | ⟨-, h⟩
        · lia
        · have := edges_inside h3 he h (by lia)
          lia
        · lia
        · exact (ihb (by lia) (within_body c next) h hy).imp_right fun h => .inr (.inr h)
        · lia

/-! ## An order of the instructions -/

/-- The place of an instruction in an order in which the end of a loop comes behind its body. -/
def place : Code → InstrId → InstrId → Nat
  | .seq a b, next, i => if i < next + a.size then a.place next i else b.place (next + a.size) i
  | .branch _ a b, next, i =>
    if i < next + a.size then a.place next i
    else if i < next + a.size + b.size then b.place (next + a.size) i
    else i
  | .value _ c, next, i => c.place next i
  | .loop _ c b, next, i =>
    if i = next then next
    else if i < next + 1 + c.size then c.place (next + 1) i
    else if i = next + 1 + c.size then next + 1 + c.size + b.size
    else b.place (next + 1 + c.size + 1) i - 1
  | _, _, i => i

theorem place_seq (a b : Code) (next i : InstrId) : (seq a b).place next i =
    if i < next + a.size then a.place next i else b.place (next + a.size) i := rfl

theorem place_branch (e : NodeId) (a b : Code) (next i : InstrId) : (branch e a b).place next i =
    if i < next + a.size then a.place next i
    else if i < next + a.size + b.size then b.place (next + a.size) i
    else i := rfl

theorem place_loop (e : NodeId) (c b : Code) (next i : InstrId) : (loop e c b).place next i =
    if i = next then next
    else if i < next + 1 + c.size then c.place (next + 1) i
    else if i = next + 1 + c.size then next + 1 + c.size + b.size
    else b.place (next + 1 + c.size + 1) i - 1 := rfl

theorem place_range {c : Code} {next i : InstrId} (h : next ≤ i ∧ i < next + c.size) :
    next ≤ c.place next i ∧ c.place next i < next + c.size := by
  induction c generalizing next with
  | skip | step | leave => exact h
  | value n c ih => exact ih h
  | seq a b iha ihb =>
      rw [size_seq] at h ⊢
      rw [place_seq]
      split
      · next hi =>
        have := iha ⟨h.1, hi⟩
        lia
      · next hi =>
        have := @ihb (next + a.size) (by lia)
        lia
  | branch e a b iha ihb =>
      rw [size_branch] at h ⊢
      rw [place_branch]
      split
      · next hi =>
        have := iha ⟨h.1, hi⟩
        lia
      · split
        · next hi =>
          have := @ihb (next + a.size) (by lia)
          lia
        · exact h
  | loop e c b ihc ihb =>
      rw [size_loop] at h ⊢
      rw [place_loop]
      split
      · lia
      · split
        · next hi =>
          have := @ihc (next + 1) (by lia)
          lia
        · split
          · lia
          · next hi =>
            have := @ihb (next + 1 + c.size + 1) (by lia)
            lia

section

variable {a b : Code} {e : NodeId} {next i : InstrId}

theorem place_first (h : i < next + a.size) : (seq a b).place next i = a.place next i := if_pos h

theorem place_second (h : next + a.size ≤ i) :
    (seq a b).place next i = b.place (next + a.size) i := if_neg (Nat.not_lt.mpr h)

theorem place_yes (h : i < next + a.size) : (branch e a b).place next i = a.place next i := if_pos h

theorem place_no (h : next + a.size ≤ i) (h' : i < next + a.size + b.size) :
    (branch e a b).place next i = b.place (next + a.size) i := by
  rw [place_branch, if_neg (Nat.not_lt.mpr h), if_pos h']

theorem place_join :
    (branch e a b).place next (next + a.size + b.size) = next + a.size + b.size := by
  rw [place_branch, if_neg (by lia), if_neg (by lia)]

theorem place_start : (loop e a b).place next next = next := if_pos rfl

theorem place_condition (h : next + 1 ≤ i) (h' : i < next + 1 + a.size) :
    (loop e a b).place next i = a.place (next + 1) i := by
  rw [place_loop, if_neg (by lia), if_pos h']

theorem place_done :
    (loop e a b).place next (next + 1 + a.size) = next + 1 + a.size + b.size := by
  rw [place_loop, if_neg (by lia), if_neg (by lia), if_pos rfl]

theorem place_body (h : next + 1 + a.size + 1 ≤ i) :
    (loop e a b).place next i = b.place (next + 1 + a.size + 1) i - 1 := by
  rw [place_loop, if_neg (by lia), if_neg (by lia), if_neg (by lia)]

/-- The start of a loop and its condition come first. -/
theorem place_tested (h : next ≤ i) (h' : i < next + 1 + a.size) :
    (loop e a b).place next i < next + 1 + a.size := by
  rcases Nat.eq_or_lt_of_le h with rfl | h
  · rw [place_start]
    lia
  · rw [place_condition h h']
    exact (place_range ⟨h, h'⟩).2

theorem place_tested_lt_body {j : InstrId} (h : next ≤ i ∧ i < next + 1 + a.size)
    (hj : next + 1 + a.size + 1 ≤ j ∧ j < next + 1 + a.size + 1 + b.size) :
    (loop e a b).place next i < (loop e a b).place next j := by
  have := place_tested (e := e) (b := b) h.1 h.2
  have := place_range hj
  rw [place_body hj.1]
  lia

/-- All of a loop comes before the place after it. -/
theorem place_lt_done (h : next ≤ i ∧ i < next + (loop e a b).size)
    (hne : i ≠ next + 1 + a.size) :
    (loop e a b).place next i < (loop e a b).place next (next + 1 + a.size) := by
  rw [place_done]
  rw [size_loop] at h
  by_cases hi : i < next + 1 + a.size
  · have := place_tested (e := e) (b := b) h.1 hi
    lia
  · have := @place_range b (next + 1 + a.size + 1) i (by lia)
    rw [place_body (by lia)]
    lia

end

/-- **An edge goes on or closes a loop.** -/
theorem place_lt_or_around {c : Code} {ends : Option LoopEnds} {current : Option InstrId}
    {next u v : InstrId} (h3 : 3 ≤ next) (hc : ComesBefore current next)
    (he : LoopEnds.Within ends next) (h : (u, v) ∈ c.edges ends current next) (hu : next ≤ u)
    (hv : next ≤ v) : c.place next u < c.place next v ∨ c.around next v u := by
  induction c generalizing ends current next with
  | skip => cases h
  | step op e => exact absurd (mem_edges_step.mp h).1 (hc.ne hu)
  | value n c ih => exact ih h3 hc he h hu hv
  | leave e way =>
      rcases mem_edges_leave.mp h with ⟨h, -⟩ | ⟨-, htarget⟩
      · exact absurd h (hc.ne hu)
      · have := Leave.target?_lt he h3 htarget
        lia
  | seq a b iha ihb =>
      have hwithin : LoopEnds.Within ends (next + a.size) := he.mono (Nat.le_add_right _ _)
      rcases mem_edges_seq.mp h with h | h
      · have hva := (edges_inside h3 he h hv).2
        rw [place_first (hc.source_lt h), place_first hva]
        exact (iha h3 hc he h hu hv).imp_right .inl
      · obtain ⟨hvb, hvb'⟩ := edges_inside h3 he h hv
        rw [place_second hvb]
        rcases edges_source h with h' | hub
        · -- from the first part to the second one
          have hua := (out_cases h').resolve_left (hc.ne hu)
          have := (place_range hua).2
          have := (place_range ⟨hvb, hvb'⟩).1
          rw [place_first hua.2]
          exact .inl (by lia)
        · rw [place_second hub.1]
          exact (ihb (by lia) (hc.out a) hwithin h hub.1 hvb).imp_right .inr
  | branch e a b iha ihb =>
      have hwithin : LoopEnds.Within ends (next + a.size) := he.mono (Nat.le_add_right _ _)
      rcases mem_edges_branch.mp h with h | h | ⟨hout, rfl⟩ | ⟨hout, rfl⟩
      · have hva := (edges_inside h3 he h hv).2
        rw [place_yes (hc.source_lt h), place_yes hva]
        exact (iha h3 hc he h hu hv).imp_right .inl
      · have hub := (edges_source h).resolve_left (hc.ne hu)
        obtain ⟨hvb, hvb'⟩ := edges_inside h3 he h hv
        rw [place_no hub.1 hub.2, place_no hvb hvb']
        exact (ihb (by lia) (hc.mono (Nat.le_add_right _ _)) hwithin h hub.1 hvb).imp_right .inr
      · have hua := (out_cases hout).resolve_left (hc.ne hu)
        have := (place_range hua).2
        rw [place_yes hua.2, place_join]
        exact .inl (by lia)
      · have hub := (out_cases hout).resolve_left (hc.ne hu)
        have := (place_range hub).2
        rw [place_no hub.1 hub.2, place_join]
        exact .inl (by lia)
  | loop e c b ihc ihb =>
      have hin := (edges_source h).resolve_left (hc.ne hu)
      have hloop : (loop e c b).around next next u := .inl ⟨rfl, by rwa [size_loop] at hin⟩
      rcases mem_edges_loop.mp h with ⟨h, -⟩ | h | ⟨hout, rfl⟩ | h | ⟨-, rfl⟩
      · exact absurd h (hc.ne hu)
      · obtain ⟨hvc, hvc'⟩ := edges_inside h3 he h hv
        rw [place_condition hvc hvc']
        rcases edges_source h with hx | huc
        · cases hx
          have := (place_range ⟨hvc, hvc'⟩).1
          rw [place_start]
          exact .inl (by lia)
        · rw [place_condition huc.1 huc.2]
          exact (ihc (by lia) (.start next) (he.mono (Nat.le_succ _)) h huc.1 hvc).imp_right
            fun h => .inr (.inl h)
      · exact .inl (place_lt_done hin (Nat.ne_of_lt (tested_range hout).2))
      · have hsource := edges_source h
        rcases edges_target_body h with hvb | rfl | rfl | hv' | hv'
        · rcases hsource with hx | hub
          · exact .inl (place_tested_lt_body (tested_range hx) hvb)
          · have := place_range hub
            have := place_range hvb
            rw [place_body hub.1, place_body hvb.1]
            exact (ihb (by lia) (((ComesBefore.start next).out c).mono (Nat.le_succ _))
              (within_body c next) h hub.1 hvb.1).imp (fun h => by lia) fun h => .inr (.inr h)
        · exact .inr hloop
        · refine .inl (place_lt_done hin ?_)
          rcases hsource with hx | hub
          · exact Nat.ne_of_lt (tested_range hx).2
          · exact Nat.ne_of_gt hub.1
        · have h1 : exitId = 1 := rfl
          lia
        · have h2 : failureId = 2 := rfl
          lia
      · exact .inr hloop

/-! ## The whole graph -/

/-- The order of all instructions of the graph. -/
def level (c : Code) (i : InstrId) : Nat :=
  if i = entryId then 0
  else if i = exitId ∨ i = failureId then c.sinkId
  else if i = c.sinkId then c.sinkId + 1
  else c.place 3 i

variable {c : Code} {owner : NodeId}

theorem level_of_range {i : InstrId} (h : 3 ≤ i ∧ i < 3 + c.size) :
    c.level i = c.place 3 i ∧ 3 ≤ c.level i ∧ c.level i < c.sinkId := by
  have h0 : entryId = 0 := rfl
  have h1 : exitId = 1 := rfl
  have h2 : failureId = 2 := rfl
  have hs : c.sinkId = 3 + c.size := rfl
  have hlevel : c.level i = c.place 3 i := by
    rw [level, if_neg (by lia), if_neg (by lia), if_neg (by lia)]
  have := place_range h
  rw [hlevel]
  exact ⟨rfl, this.1, by lia⟩

theorem level_entry : c.level entryId = 0 := rfl

theorem level_exit : c.level exitId = c.sinkId := rfl

theorem level_failure : c.level failureId = c.sinkId := rfl

theorem level_sink : c.level c.sinkId = c.sinkId + 1 := by
  have h0 : entryId = 0 := rfl
  have h1 : exitId = 1 := rfl
  have h2 : failureId = 2 := rfl
  have hs : c.sinkId = 3 + c.size := rfl
  rw [level, if_neg (by lia), if_neg (by lia), if_pos rfl]

/-- What can be reached in a loop is reached through its start. -/
theorem mem_of_around {g u : InstrId} {p : List InstrId} (h : c.around 3 g u)
    (hp : (c.flow owner).Path entryId p u) : g ∈ p := by
  have h0 : entryId = 0 := rfl
  have h1 : exitId = 1 := rfl
  have hs : c.sinkId = 3 + c.size := rfl
  refine hp.mem_of_gate (S := c.around 3 g) ?_ (fun hentry => ?_) h
  · intro x y hxy hy
    have hr := around_range hy
    rcases mem_flowEdges.mp ((c.mem_succs_flow owner).mp hxy) with h | ⟨-, h⟩ | ⟨-, h⟩ | ⟨-, h⟩
    · exact around_step (Nat.le_refl 3) (LoopEnds.within_none 3) h hy
    · lia
    · lia
    · lia
  · have := (around_range hentry).1
    lia

/-- **In the graph of structured code an edge goes on or closes a loop.** -/
theorem level_lt_or_closes {u v : InstrId} (h : (u, v) ∈ c.flowEdges)
    (hu : (c.flow owner).Reaches entryId u) :
    c.level u < c.level v ∨ (c.flow owner).Closes u v := by
  have hedge := (c.mem_succs_flow owner).mpr h
  have hs : c.sinkId = 3 + c.size := rfl
  have hbelow (h : some entryId = some u ∨ 3 ≤ u ∧ u < 3 + c.size) : c.level u < c.sinkId := by
    rcases h with h | h
    · cases h
      rw [level_entry]
      lia
    · exact (level_of_range h).2.2
  rcases mem_flowEdges.mp h with h | ⟨hout, rfl⟩ | ⟨rfl, rfl⟩ | ⟨rfl, rfl⟩
  · rcases edges_target_outside h with hv | rfl | rfl
    · have hlevel := level_of_range hv
      rcases edges_source h with hx | hx
      · cases hx
        rw [level_entry]
        exact .inl (by lia)
      · rw [(level_of_range hx).1, hlevel.1]
        refine (place_lt_or_around (Nat.le_refl 3) entry_before (LoopEnds.within_none 3) h hx.1
          hv.1).imp_right fun hloop => ⟨hedge, hu, fun p hp => mem_of_around hloop hp⟩
    · exact .inl (level_exit (c := c) ▸ hbelow (edges_source h))
    · exact .inl (level_failure (c := c) ▸ hbelow (edges_source h))
  · exact .inl (level_exit (c := c) ▸ hbelow (out_cases hout))
  · rw [level_exit, level_sink]
    exact .inl (by lia)
  · rw [level_failure, level_sink]
    exact .inl (by lia)

end Code

end ComponentAudit
