import ComponentAudit.Proofs.Flow.Lowered

set_option autoImplicit false

/-! # Runs of structured code

What a piece of structured code can do, without a graph: which nodes it stores at, in order,
and how it ends (`Code.Runs`). Branches and loops go either way.

Main statement: `Code.leads_exit_iff`. The stores that can be read along the paths of the graph
of a body from its entry to one of its exits are those of the runs that end there.

One half follows the run through the graph (`Code.Runs.leads`). For the other half every
instruction is given the set of what may be stored after it (`Code.rest`); the edges respect
these sets (`Code.edges_rest`), so what a path stores is in the set of its start.
-/

namespace ComponentAudit

/-- How a piece of code ends. -/
inductive Outcome where
  | completes
  | leaves (way : Leave)
deriving DecidableEq

namespace Outcome

/-- Whether the body of a loop that ends so goes back to the start of the loop. -/
def repeats : Outcome → Bool
  | completes | leaves .continues => true
  | _ => false

/-- How a loop ends whose body ends so, unless it goes back to its start. -/
def outside : Outcome → Outcome
  | leaves .breaks => completes
  | o => o

end Outcome

/-- The node that an instruction stores at, if it does. -/
def Op.stores (op : Op) (element : NodeId) : List NodeId :=
  match op with
  | .write .. => [element]
  | _ => []

/-- What a piece of code can store and how it can end then. The condition of a loop is outside
of the loop: leaving it acts on the loop around. -/
inductive Code.Runs : Code → List NodeId → Outcome → Prop
  | skip : Runs .skip [] .completes
  | seq {a b : Code} {u v : List NodeId} {o : Outcome} :
      Runs a u .completes → Runs b v o → Runs (.seq a b) (u ++ v) o
  | seqLeaves {a b : Code} {u : List NodeId} {way : Leave} :
      Runs a u (.leaves way) → Runs (.seq a b) u (.leaves way)
  | step {op : Op} {e : NodeId} : Runs (.step op e) (op.stores e) .completes
  | value {n : NodeId} {c : Code} {u : List NodeId} {o : Outcome} :
      Runs c u o → Runs (.value n c) u o
  | leave {e : NodeId} {way : Leave} : Runs (.leave e way) [] (.leaves way)
  | yes {e : NodeId} {a b : Code} {u : List NodeId} {o : Outcome} :
      Runs a u o → Runs (.branch e a b) u o
  | no {e : NodeId} {a b : Code} {u : List NodeId} {o : Outcome} :
      Runs b u o → Runs (.branch e a b) u o
  | stops {e : NodeId} {c b : Code} {u : List NodeId} :
      Runs c u .completes → Runs (.loop e c b) u .completes
  | testLeaves {e : NodeId} {c b : Code} {u : List NodeId} {way : Leave} :
      Runs c u (.leaves way) → Runs (.loop e c b) u (.leaves way)
  | again {e : NodeId} {c b : Code} {u v w : List NodeId} {o o' : Outcome} :
      Runs c u .completes → Runs b v o → o.repeats = true → Runs (.loop e c b) w o' →
      Runs (.loop e c b) (u ++ v ++ w) o'
  | exits {e : NodeId} {c b : Code} {u v : List NodeId} {o : Outcome} :
      Runs c u .completes → Runs b v o → o.repeats = false →
      Runs (.loop e c b) (u ++ v) o.outside

/-! ## Reading stores along paths -/

namespace Flow

/-- The node that an instruction of a graph stores at, if it does. -/
def stored (f : Flow) (i : InstrId) : List NodeId :=
  match (f.instr i).element with
  | some e => (f.instr i).op.stores e
  | none => []

/-- The nodes that the instructions on a path store at, in order. -/
def writes (f : Flow) (p : List InstrId) : List NodeId := p.flatMap f.stored

/-- Whether a path leads from one instruction to another and stores so on the way, the first
instruction apart. -/
def Leads (f : Flow) (a : InstrId) (w : List NodeId) (b : InstrId) : Prop :=
  ∃ p, f.Path a (a :: p) b ∧ f.writes p = w

theorem Leads.refl (f : Flow) (a : InstrId) : f.Leads a [] a := ⟨[], .stop a, rfl⟩

theorem Leads.edge {f : Flow} {a b : InstrId} (h : b ∈ f.succs a) : f.Leads a (f.stored b) b :=
  ⟨[b], .step h (.stop b), by simp [writes]⟩

theorem Leads.trans {f : Flow} {a b c : InstrId} {u v : List NodeId} (h₁ : f.Leads a u b)
    (h₂ : f.Leads b v c) : f.Leads a (u ++ v) c := by
  obtain ⟨p, hp, rfl⟩ := h₁
  obtain ⟨q, hq, rfl⟩ := h₂
  exact ⟨p ++ q, hp.append hq, by simp [writes]⟩

/-- From an instruction that stores nothing, all stores on a path are after it. -/
theorem exists_path_iff_leads {f : Flow} {a b : InstrId} {w : List NodeId}
    (ha : f.stored a = []) : (∃ p, f.Path a p b ∧ f.writes p = w) ↔ f.Leads a w b := by
  constructor
  · rintro ⟨p, hp, rfl⟩
    cases hp with
    | stop => exact ⟨[], .stop a, by simp [writes, ha]⟩
    | step h hp => exact ⟨_, .step h hp, by simp [writes, ha]⟩
  · rintro ⟨p, hp, rfl⟩
    exact ⟨a :: p, hp, by simp [writes, ha]⟩

/-- An edge to an instruction that stores nothing, and then on. -/
theorem Leads.after {f : Flow} {a b c : InstrId} {w : List NodeId} (h : b ∈ f.succs a)
    (hb : f.stored b = []) (hw : f.Leads b w c) : f.Leads a w c := by
  have := (Leads.edge h).trans hw
  rwa [hb, List.nil_append] at this

/-- One more edge, to an instruction that stores nothing. -/
theorem Leads.before {f : Flow} {a b c : InstrId} {w : List NodeId} (hw : f.Leads a w b)
    (h : c ∈ f.succs b) (hc : f.stored c = []) : f.Leads a w c := by
  have := hw.trans (Leads.edge h)
  rwa [hc, List.append_nil] at this

/-- Sets that every edge respects hold what can be stored on the way to the end of a path. -/
theorem Path.writes_mem {f : Flow} {V : InstrId → Set (List NodeId)}
    (hV : ∀ a b, b ∈ f.succs a → ∀ w ∈ V b, f.stored b ++ w ∈ V a) {a b : InstrId}
    {p : List InstrId} (hp : f.Path a p b) (hb : [] ∈ V b) :
    ∃ w ∈ V a, f.writes p = f.stored a ++ w := by
  induction hp with
  | stop i => exact ⟨[], hb, by simp [writes]⟩
  | @step i j k p h _ ih =>
      obtain ⟨w, hw, heq⟩ := ih hb
      refine ⟨f.stored j ++ w, hV i j h w hw, ?_⟩
      rw [← heq]
      simp [writes]

end Flow

/-- A piece of code put into a graph: its instructions store there what they do, and one can
leave only for instructions that store nothing. -/
structure Code.Stores (c : Code) (f : Flow) (ends : Option LoopEnds) (next : InstrId) : Prop where
  node : ∀ k n, c.nodes[k]? = some n → f.stored (next + k) = n.1.stores n.2
  target : ∀ (way : Leave) t, way.target? ends = some t → f.stored t = []

namespace Code.Stores

variable {f : Flow} {ends : Option LoopEnds} {next : InstrId}

/-- A part of the code is put where the instructions before it end. -/
theorem part {c d : Code} (h : c.Stores f ends next) (before behind : List (Op × NodeId))
    (hc : c.nodes = before ++ d.nodes ++ behind) {ends' : Option LoopEnds} {next' : InstrId}
    (hn : next' = next + before.length)
    (ht : ∀ (way : Leave) t, way.target? ends' = some t → f.stored t = []) :
    d.Stores f ends' next' where
  node := by
    intro k n hk
    have hlt : k < d.nodes.length := (List.getElem?_eq_some_iff.mp hk).1
    have := h.node (before.length + k) n (by
      rw [hc, List.append_assoc, List.getElem?_append_right (Nat.le_add_right _ _),
        Nat.add_sub_cancel_left, List.getElem?_append_left hlt, hk])
    rwa [hn, Nat.add_assoc]
  target := ht

/-- What a single instruction of the code stores. -/
theorem single {c : Code} (h : c.Stores f ends next) (before behind : List (Op × NodeId))
    (n : Op × NodeId) (hc : c.nodes = before ++ n :: behind) {i : InstrId}
    (hi : i = next + before.length) : f.stored i = n.1.stores n.2 := by
  rw [hi]
  exact h.node before.length n (by rw [hc]; simp)

theorem first {a b : Code} (h : (seq a b).Stores f ends next) : a.Stores f ends next :=
  h.part [] b.nodes rfl rfl h.target

theorem second {a b : Code} (h : (seq a b).Stores f ends next) :
    b.Stores f ends (next + a.size) :=
  h.part a.nodes [] (by simp [nodes]) rfl h.target

theorem yes {e : NodeId} {a b : Code} (h : (branch e a b).Stores f ends next) :
    a.Stores f ends next :=
  h.part [] (b.nodes ++ [(.jump, e)]) (by simp [nodes]) rfl h.target

theorem no {e : NodeId} {a b : Code} (h : (branch e a b).Stores f ends next) :
    b.Stores f ends (next + a.size) :=
  h.part a.nodes [(.jump, e)] (by simp [nodes]) rfl h.target

/-- The point where two branches come together stores nothing. -/
theorem join {e : NodeId} {a b : Code} (h : (branch e a b).Stores f ends next) :
    f.stored (next + a.size + b.size) = [] :=
  h.single (a.nodes ++ b.nodes) [] (.jump, e) (by simp [nodes])
    (by simp [size, Nat.add_assoc])

/-- The start of a loop stores nothing. -/
theorem again {e : NodeId} {c b : Code} (h : (loop e c b).Stores f ends next) :
    f.stored next = [] :=
  h.single [] _ (.jump, e) rfl rfl

/-- The place after a loop stores nothing. -/
theorem done {e : NodeId} {c b : Code} (h : (loop e c b).Stores f ends next) :
    f.stored (next + 1 + c.size) = [] :=
  h.single ((.jump, e) :: c.nodes) b.nodes (.jump, e)
    (by simp [nodes]) (by simp [size]; lia)

theorem condition {e : NodeId} {c b : Code} (h : (loop e c b).Stores f ends next) :
    c.Stores f ends (next + 1) :=
  h.part [(.jump, e)] ((.jump, e) :: b.nodes) (by simp [nodes]) rfl h.target

theorem body {e : NodeId} {c b : Code} (h : (loop e c b).Stores f ends next) :
    b.Stores f (some { again := next, done := next + 1 + c.size }) (next + 1 + c.size + 1) := by
  refine h.part ((.jump, e) :: c.nodes ++ [(.jump, e)]) []
    (by simp [nodes]) (by simp [size]; lia) ?_
  intro way t ht
  cases way with
  | returns => exact h.target .returns t ht
  | throws => exact h.target .throws t ht
  | breaks =>
      cases ht
      exact h.done
  | continues =>
      cases ht
      exact h.again

end Code.Stores

/-- A piece of code whose edges are in a graph. -/
def Code.Embeds (c : Code) (f : Flow) (ends : Option LoopEnds) (current : Option InstrId)
    (next : InstrId) : Prop :=
  ∀ x y, (x, y) ∈ c.edges ends current next → y ∈ f.succs x

namespace Code.Embeds

variable {f : Flow} {ends : Option LoopEnds} {current : Option InstrId} {next i : InstrId}

theorem first {a b : Code} (h : (seq a b).Embeds f ends current next) :
    a.Embeds f ends current next :=
  fun x y hxy => h x y (mem_edges_seq.mpr (.inl hxy))

theorem second {a b : Code} (h : (seq a b).Embeds f ends current next) :
    b.Embeds f ends (a.out current next) (next + a.size) :=
  fun x y hxy => h x y (mem_edges_seq.mpr (.inr hxy))

section

variable {e : NodeId} {a b : Code} (h : (branch e a b).Embeds f ends current next)

include h

theorem yes : a.Embeds f ends current next :=
  fun x y hxy => h x y (mem_edges_branch.mpr (.inl hxy))

theorem no : b.Embeds f ends current (next + a.size) :=
  fun x y hxy => h x y (mem_edges_branch.mpr (.inr (.inl hxy)))

theorem join_yes (hi : a.out current next = some i) : next + a.size + b.size ∈ f.succs i :=
  h _ _ (mem_edges_branch.mpr (.inr (.inr (.inl ⟨hi, rfl⟩))))

theorem join_no (hi : b.out current (next + a.size) = some i) :
    next + a.size + b.size ∈ f.succs i :=
  h _ _ (mem_edges_branch.mpr (.inr (.inr (.inr ⟨hi, rfl⟩))))

end

section

variable {e : NodeId} {c b : Code} (h : (loop e c b).Embeds f ends current next)

include h

theorem start (hi : current = some i) : next ∈ f.succs i :=
  h _ _ (mem_edges_loop.mpr (.inl ⟨hi, rfl⟩))

theorem condition : c.Embeds f ends (some next) (next + 1) :=
  fun x y hxy => h x y (mem_edges_loop.mpr (.inr (.inl hxy)))

variable {tested : Option InstrId} (htested : c.out (some next) (next + 1) = tested)

include htested

theorem done (hi : tested = some i) : next + 1 + c.size ∈ f.succs i :=
  h _ _ (mem_edges_loop.mpr (.inr (.inr (.inl ⟨htested.trans hi, rfl⟩))))

theorem body : b.Embeds f (some { again := next, done := next + 1 + c.size }) tested
    (next + 1 + c.size + 1) := by
  intro x y hxy
  rw [← htested] at hxy
  exact h x y (mem_edges_loop.mpr (.inr (.inr (.inr (.inl hxy)))))

theorem back (hi : b.out tested (next + 1 + c.size + 1) = some i) : next ∈ f.succs i := by
  rw [← htested] at hi
  exact h _ _ (mem_edges_loop.mpr (.inr (.inr (.inr (.inr ⟨hi, rfl⟩)))))

end

end Code.Embeds

/-! ## Every run is a path -/

namespace Code

/-- Where code goes that ends in some way. -/
def goal (c : Code) (ends : Option LoopEnds) (current : Option InstrId) (next : InstrId) :
    Outcome → Option InstrId
  | .completes => c.out current next
  | .leaves way => way.target? ends

/-- Code that can complete lets control fall through. -/
theorem Runs.out_eq_some {c : Code} {w : List NodeId} {o : Outcome} (h : c.Runs w o)
    (ho : o = .completes) (a next : InstrId) : ∃ b, c.out (some a) next = some b := by
  induction h generalizing a next with
  | skip => exact ⟨a, rfl⟩
  | seq _ _ ih₁ ih₂ =>
      obtain ⟨b, hb⟩ := ih₁ rfl a next
      simp only [out, hb]
      exact ih₂ ho b _
  | step => exact ⟨next, rfl⟩
  | value _ ih => exact ih ho a next
  | seqLeaves | leave | testLeaves => cases ho
  | yes | no | stops | again | exits => exact ⟨_, rfl⟩

/-- **A run goes along a path.** Where the edges of a piece of code are in a graph, a run of the
code is a path from the instruction that control comes from to the goal of the run. A run of a
loop may as well begin at the start of the loop. -/
theorem Runs.leads {f : Flow} {c : Code} {w : List NodeId} {o : Outcome} (h : c.Runs w o)
    {ends : Option LoopEnds} {a next : InstrId} (hst : c.Stores f ends next)
    (hedges : c.Embeds f ends (some a) next) {t : InstrId}
    (ht : c.goal ends (some a) next o = some t) :
    f.Leads a w t ∧ (∀ e test body, c = .loop e test body → f.Leads next w t) := by
  -- The induction is on the run. A round of a loop ends at its start and not where control came
  -- from, so the rest of the run, which is again one of the loop, has to be a path from there.
  induction h generalizing ends a next t with
  | skip =>
      cases ht
      exact ⟨.refl f a, by simp⟩
  | @seq c d u v o h₁ h₂ ih₁ ih₂ =>
      refine ⟨?_, by simp⟩
      obtain ⟨b, hb⟩ := h₁.out_eq_some rfl a next
      have hsecond := hedges.second
      rw [hb] at hsecond
      have hgoal : d.goal ends (some b) (next + c.size) o = some t := by
        cases o with
        | completes => simpa [goal, out, hb] using ht
        | leaves way => exact ht
      exact (ih₁ hst.first hedges.first hb).1.trans (ih₂ hst.second hsecond hgoal).1
  | seqLeaves _ ih => exact ⟨(ih hst.first hedges.first ht).1, by simp⟩
  | @step op e =>
      refine ⟨?_, by simp⟩
      cases ht
      have hs : f.stored next = op.stores e := hst.node 0 (op, e) rfl
      exact hs ▸ .edge (hedges a next (mem_edges_step.mpr ⟨rfl, rfl⟩))
  | value _ ih => exact ⟨(ih ⟨hst.node, hst.target⟩ hedges ht).1, by simp⟩
  | @leave e way =>
      refine ⟨?_, by simp⟩
      have hway : way.target? ends = some t := ht
      have hs : f.stored next = [] := hst.node 0 (.jump, e) rfl
      have l := (Flow.Leads.refl f next).before
        (hedges next t (mem_edges_leave.mpr (.inr ⟨rfl, hway⟩))) (hst.target way t hway)
      exact l.after (hedges a next (mem_edges_leave.mpr (.inl ⟨rfl, rfl⟩))) hs
  | @yes e c d u o hr ih =>
      refine ⟨?_, by simp⟩
      cases o with
      | leaves way => exact (ih hst.yes hedges.yes ht).1
      | completes =>
          obtain ⟨b, hb⟩ := hr.out_eq_some rfl a next
          cases ht
          exact (ih hst.yes hedges.yes hb).1.before (hedges.join_yes hb) hst.join
  | @no e c d u o hr ih =>
      refine ⟨?_, by simp⟩
      cases o with
      | leaves way => exact (ih hst.no hedges.no ht).1
      | completes =>
          obtain ⟨b, hb⟩ := hr.out_eq_some rfl a (next + c.size)
          cases ht
          exact (ih hst.no hedges.no hb).1.before (hedges.join_no hb) hst.join
  | @stops e c b u hc ihc =>
      obtain ⟨d, hd⟩ := hc.out_eq_some rfl next (next + 1)
      have l₁ := (ihc hst.condition hedges.condition hd).1
      have l : f.Leads next u t := by
        cases ht
        exact l₁.before (hedges.done hd rfl) hst.done
      exact ⟨l.after (hedges.start rfl) hst.again, fun _ _ _ _ => l⟩
  | @testLeaves e c b u way hc ihc =>
      have l := (ihc hst.condition hedges.condition ht).1
      exact ⟨l.after (hedges.start rfl) hst.again, fun _ _ _ _ => l⟩
  | @again e c b u v w o o' hc hb hrep hl ihc ihb ihl =>
      obtain ⟨d, hd⟩ := hc.out_eq_some rfl next (next + 1)
      have l₁ := (ihc hst.condition hedges.condition hd).1
      -- the body goes back to the start, at its end or by leaving for it
      have l₂ : f.Leads d v next := by
        cases o with
        | completes =>
            obtain ⟨x, hx⟩ := hb.out_eq_some rfl d (next + 1 + c.size + 1)
            exact (ihb hst.body (hedges.body hd) hx).1.before (hedges.back hd hx) hst.again
        | leaves way =>
            cases way with
            | continues => exact (ihb hst.body (hedges.body hd) rfl).1
            | returns | throws | breaks => cases hrep
      have l₃ := (ihl hst hedges ht).2 e c b rfl
      have l := (l₁.trans l₂).trans l₃
      exact ⟨l.after (hedges.start rfl) hst.again, fun _ _ _ _ => l⟩
  | @exits e c b u v o hc hb hrep ihc ihb =>
      obtain ⟨d, hd⟩ := hc.out_eq_some rfl next (next + 1)
      have l₁ := (ihc hst.condition hedges.condition hd).1
      have hgoal : b.goal (some { again := next, done := next + 1 + c.size }) (some d)
          (next + 1 + c.size + 1) o = some t := by
        cases o with
        | completes => cases hrep
        | leaves way =>
            cases way with
            | continues => cases hrep
            | returns | throws | breaks => exact ht
      -- a break goes to the place after the loop, where the loop completes
      have l := l₁.trans (ihb hst.body (hedges.body hd) hgoal).1
      exact ⟨l.after (hedges.start rfl) hst.again, fun _ _ _ _ => l⟩

end Code

/-! ## Every path is a run -/

/-- What may be stored after a piece of code, for each way in which it ends. -/
abbrev Rest := Outcome → Set (List NodeId)

/-- What may be stored by a piece of code and after it. -/
def Code.after (c : Code) (K : Rest) : Set (List NodeId) :=
  {w | ∃ u o v, c.Runs u o ∧ v ∈ K o ∧ w = u ++ v}

namespace Rest

/-- What may be stored after the first of two pieces of code. -/
def andThen (K : Rest) (second : Code) : Rest
  | .completes => second.after K
  | .leaves way => K (.leaves way)

/-- What may be stored after the body of a loop. -/
def inLoop (K : Rest) (loop : Code) : Rest := fun o =>
  if o.repeats then loop.after K else K o.outside

/-- What may be stored after the condition of a loop: the loop stops, or its body follows. -/
def afterTest (K : Rest) (loop body : Code) : Rest
  | .completes => K .completes ∪ body.after (K.inLoop loop)
  | .leaves way => K (.leaves way)

end Rest

namespace Code

variable {K : Rest}

theorem after_seq {a b : Code} : a.after (K.andThen b) ⊆ (seq a b).after K := by
  rintro _ ⟨u, o, v, hu, hv, rfl⟩
  cases o with
  | completes =>
      obtain ⟨v₁, o, v₂, hv₁, hv₂, rfl⟩ := hv
      exact ⟨u ++ v₁, o, v₂, .seq hu hv₁, hv₂, by simp⟩
  | leaves way => exact ⟨u, _, v, .seqLeaves hu, hv, rfl⟩

theorem after_yes {e : NodeId} {a b : Code} : a.after K ⊆ (branch e a b).after K := by
  rintro _ ⟨u, o, v, hu, hv, rfl⟩
  exact ⟨u, o, v, .yes hu, hv, rfl⟩

theorem after_no {e : NodeId} {a b : Code} : b.after K ⊆ (branch e a b).after K := by
  rintro _ ⟨u, o, v, hu, hv, rfl⟩
  exact ⟨u, o, v, .no hu, hv, rfl⟩

theorem after_test {e : NodeId} {c b : Code} :
    c.after (K.afterTest (loop e c b) b) ⊆ (loop e c b).after K := by
  rintro _ ⟨u, o, v, hu, hv, rfl⟩
  cases o with
  | leaves way => exact ⟨u, _, v, .testLeaves hu, hv, rfl⟩
  | completes =>
      rcases hv with hv | ⟨v₁, o, v₂, hv₁, hv₂, rfl⟩
      · exact ⟨u, _, v, .stops hu, hv, rfl⟩
      · unfold Rest.inLoop at hv₂
        split at hv₂
        next hrep =>
          obtain ⟨w₁, o', w₂, hw₁, hw₂, rfl⟩ := hv₂
          exact ⟨u ++ v₁ ++ w₁, o', w₂, .again hu hv₁ hrep hw₁, hw₂, by simp⟩
        next hrep =>
          exact ⟨u ++ v₁, _, v₂, .exits hu hv₁ (Bool.eq_false_iff.mpr hrep), hv₂, by simp⟩

/-- What may be stored after one instruction of a piece of code. -/
def rest : Code → Rest → InstrId → InstrId → Set (List NodeId)
  | .skip, _, _, _ => ∅
  | .seq a b, K, next, i =>
    if i < next + a.size then a.rest (K.andThen b) next i else b.rest K (next + a.size) i
  | .step _ _, K, _, _ => K .completes
  | .value _ c, K, next, i => c.rest K next i
  | .leave _ way, K, _, _ => K (.leaves way)
  | .branch _ a b, K, next, i =>
    if i < next + a.size then a.rest K next i
    else if i < next + a.size + b.size then b.rest K (next + a.size) i
    else K .completes
  | .loop e c b, K, next, i =>
    if i = next then (loop e c b).after K
    else if i < next + 1 + c.size then c.rest (K.afterTest (loop e c b) b) (next + 1) i
    else if i = next + 1 + c.size then K .completes
    else b.rest (K.inLoop (loop e c b)) (next + 1 + c.size + 1) i

theorem rest_seq (a b : Code) (K : Rest) (next i : InstrId) : (seq a b).rest K next i =
    if i < next + a.size then a.rest (K.andThen b) next i else b.rest K (next + a.size) i := rfl

theorem rest_branch (e : NodeId) (a b : Code) (K : Rest) (next i : InstrId) :
    (branch e a b).rest K next i =
      if i < next + a.size then a.rest K next i
      else if i < next + a.size + b.size then b.rest K (next + a.size) i
      else K .completes := rfl

theorem rest_loop (e : NodeId) (c b : Code) (K : Rest) (next i : InstrId) :
    (loop e c b).rest K next i =
      if i = next then (loop e c b).after K
      else if i < next + 1 + c.size then c.rest (K.afterTest (loop e c b) b) (next + 1) i
      else if i = next + 1 + c.size then K .completes
      else b.rest (K.inLoop (loop e c b)) (next + 1 + c.size + 1) i := rfl

/-- A piece of code put into a graph whose instructions carry sets: its own instructions carry
what may be stored after them, and the sets around it agree with what may be stored after it. -/
structure Fits (c : Code) (f : Flow) (V : InstrId → Set (List NodeId)) (K : Rest)
    (ends : Option LoopEnds) (current : Option InstrId) (next : InstrId) : Prop where
  stores : c.Stores f ends next
  own : ∀ i, next ≤ i → i < next + c.size → V i = c.rest K next i
  start : ∀ i, current = some i → c.after K ⊆ V i
  target : ∀ (way : Leave) t, way.target? ends = some t → V t ⊆ K (.leaves way)

namespace Fits

variable {f : Flow} {V : InstrId → Set (List NodeId)} {ends : Option LoopEnds}
  {current : Option InstrId} {next : InstrId}

theorem first {a b : Code} (h : (seq a b).Fits f V K ends current next) :
    a.Fits f V (K.andThen b) ends current next where
  stores := h.stores.first
  own := by
    intro i hi hi'
    rw [h.own i hi (by rw [size_seq]; lia), rest_seq, if_pos hi']
  start := fun i hi => after_seq.trans (h.start i hi)
  target := h.target

theorem second {a b : Code} (h : (seq a b).Fits f V K ends current next)
    (hs : ∀ i, a.out current next = some i → b.after K ⊆ V i) :
    b.Fits f V K ends (a.out current next) (next + a.size) where
  stores := h.stores.second
  own := by
    intro i hi hi'
    rw [h.own i (by lia) (by rw [size_seq]; lia), rest_seq, if_neg (by lia)]
  start := hs
  target := h.target

theorem yes {e : NodeId} {a b : Code} (h : (branch e a b).Fits f V K ends current next) :
    a.Fits f V K ends current next where
  stores := h.stores.yes
  own := by
    intro i hi hi'
    rw [h.own i hi (by rw [size_branch]; lia), rest_branch, if_pos hi']
  start := fun i hi => after_yes.trans (h.start i hi)
  target := h.target

theorem no {e : NodeId} {a b : Code} (h : (branch e a b).Fits f V K ends current next) :
    b.Fits f V K ends current (next + a.size) where
  stores := h.stores.no
  own := by
    intro i hi hi'
    rw [h.own i (by lia) (by rw [size_branch]; lia), rest_branch, if_neg (by lia), if_pos hi']
  start := fun i hi => after_no.trans (h.start i hi)
  target := h.target

theorem join {e : NodeId} {a b : Code} (h : (branch e a b).Fits f V K ends current next) :
    V (next + a.size + b.size) = K .completes := by
  rw [h.own _ (by lia) (by rw [size_branch]; lia), rest_branch, if_neg (by lia), if_neg (by lia)]

theorem again {e : NodeId} {c b : Code} (h : (loop e c b).Fits f V K ends current next) :
    V next = (loop e c b).after K := by
  rw [h.own _ (by lia) (by rw [size_loop]; lia), rest_loop, if_pos rfl]

theorem done {e : NodeId} {c b : Code} (h : (loop e c b).Fits f V K ends current next) :
    V (next + 1 + c.size) = K .completes := by
  rw [h.own _ (by lia) (by rw [size_loop]; lia), rest_loop, if_neg (by lia), if_neg (by lia),
    if_pos rfl]

theorem condition {e : NodeId} {c b : Code} (h : (loop e c b).Fits f V K ends current next) :
    c.Fits f V (K.afterTest (loop e c b) b) ends (some next) (next + 1) where
  stores := h.stores.condition
  own := by
    intro i hi hi'
    rw [h.own i (by lia) (by rw [size_loop]; lia), rest_loop, if_neg (by lia), if_pos hi']
  start := by
    intro i hi
    cases hi
    rw [h.again]
    exact after_test
  target := h.target

theorem body {e : NodeId} {c b : Code} (h : (loop e c b).Fits f V K ends current next)
    {tested : Option InstrId}
    (hs : ∀ i, tested = some i → b.after (K.inLoop (loop e c b)) ⊆ V i) :
    b.Fits f V (K.inLoop (loop e c b)) (some { again := next, done := next + 1 + c.size }) tested
      (next + 1 + c.size + 1) where
  stores := h.stores.body
  own := by
    intro i hi hi'
    rw [h.own i (by lia) (by rw [size_loop]; lia), rest_loop, if_neg (by lia), if_neg (by lia),
      if_neg (by lia)]
  start := hs
  target := by
    intro way t ht
    cases way with
    | returns => exact h.target .returns t ht
    | throws => exact h.target .throws t ht
    | breaks =>
        cases ht
        exact h.done.subset
    | continues =>
        cases ht
        exact h.again.subset

/-- **Edges respect what may be stored.** Along every edge of a piece of code, what may be stored
from its second end on may be stored after its first, and where control falls through all that
may follow the code may follow. -/
theorem edges_rest {c : Code} (h : c.Fits f V K ends current next) :
    (∀ x y, (x, y) ∈ c.edges ends current next → ∀ w ∈ V y, f.stored y ++ w ∈ V x) ∧
      ∀ i, c.out current next = some i → K .completes ⊆ V i := by
  -- The second half is what the edges out of a part need: they start where its control falls
  -- through.
  induction c generalizing K ends current next with
  | skip => exact ⟨nofun, fun i hi w hw => h.start i hi ⟨[], .completes, w, .skip, hw, rfl⟩⟩
  | seq a b iha ihb =>
      obtain ⟨ha, houta⟩ := iha h.first
      obtain ⟨hb, houtb⟩ := ihb (h.second houta)
      refine ⟨?_, houtb⟩
      intro x y hxy
      rcases mem_edges_seq.mp hxy with hxy | hxy
      · exact ha x y hxy
      · exact hb x y hxy
  | step op e =>
      have hown : V next = K .completes := h.own next (Nat.le_refl _) (by simp)
      have hs : f.stored next = op.stores e := h.stores.node 0 (op, e) rfl
      refine ⟨?_, ?_⟩
      · intro x y hxy w hw
        obtain ⟨hx, rfl⟩ := mem_edges_step.mp hxy
        rw [hown] at hw
        rw [hs]
        exact h.start x hx ⟨_, .completes, w, .step, hw, rfl⟩
      · intro i hi
        cases hi
        exact hown.symm.subset
  | value n c ih =>
      refine ih ⟨⟨h.stores.node, h.stores.target⟩, h.own, ?_, h.target⟩
      rintro i hi _ ⟨u, o, v, hu, hv, rfl⟩
      exact h.start i hi ⟨u, o, v, .value hu, hv, rfl⟩
  | leave e way =>
      have hown : V next = K (.leaves way) := h.own next (Nat.le_refl _) (by simp)
      have hs : f.stored next = [] := h.stores.node 0 (.jump, e) rfl
      refine ⟨?_, nofun⟩
      intro x y hxy w hw
      rcases mem_edges_leave.mp hxy with ⟨hx, rfl⟩ | ⟨rfl, htarget⟩
      · rw [hown] at hw
        rw [hs]
        exact h.start x hx ⟨[], .leaves way, w, .leave, hw, rfl⟩
      · rw [hown, h.stores.target way y htarget]
        exact h.target way y htarget hw
  | branch e a b iha ihb =>
      obtain ⟨ha, houta⟩ := iha h.yes
      obtain ⟨hb, houtb⟩ := ihb h.no
      refine ⟨?_, ?_⟩
      · intro x y hxy w hw
        rcases mem_edges_branch.mp hxy with hxy | hxy | ⟨hx, rfl⟩ | ⟨hx, rfl⟩
        · exact ha x y hxy w hw
        · exact hb x y hxy w hw
        · rw [h.stores.join]
          exact houta x hx (h.join ▸ hw)
        · rw [h.stores.join]
          exact houtb x hx (h.join ▸ hw)
      · intro i hi
        cases hi
        exact h.join.symm.subset
  | loop e c b ihc ihb =>
      obtain ⟨hc, houtc⟩ := ihc h.condition
      -- the set at the end of the condition also holds what the body may store
      obtain ⟨hb, houtb⟩ := ihb (h.body fun i hi => Set.subset_union_right.trans (houtc i hi))
      refine ⟨?_, ?_⟩
      · intro x y hxy w hw
        rcases mem_edges_loop.mp hxy with ⟨hx, rfl⟩ | hxy | ⟨hx, rfl⟩ | hxy | ⟨hx, rfl⟩
        · rw [h.stores.again]
          exact h.start x hx (h.again ▸ hw)
        · exact hc x y hxy w hw
        · rw [h.stores.done]
          exact houtc x hx (.inl (h.done ▸ hw))
        · exact hb x y hxy w hw
        · rw [h.stores.again]
          exact houtb x hx (show w ∈ (loop e c b).after K from h.again ▸ hw)
      · intro i hi
        cases hi
        exact h.done.symm.subset

end Fits

/-! ## The graph of a body -/

end Code

theorem Flow.stored_of_label {f : Flow} {i : InstrId} (op : Op) (e : NodeId)
    (h : f.labels[i]? = some (op, some e)) : f.stored i = op.stores e := by
  obtain ⟨hop, he⟩ := instr_of_label h
  simp [stored, hop, he]

/-- The exit that the graph of a body has for a way to end. -/
def Outcome.exit? : Outcome → Option InstrId
  | .completes => some exitId
  | .leaves way => way.target? none

namespace Code

theorem stored_entry (c : Code) (owner : NodeId) : (c.flow owner).stored entryId = [] :=
  Flow.stored_of_label .enter owner (by rw [labels_flow]; rfl)

theorem stored_exit (c : Code) (owner : NodeId) : (c.flow owner).stored exitId = [] :=
  Flow.stored_of_label (.exit false) owner (by rw [labels_flow]; rfl)

theorem stored_failure (c : Code) (owner : NodeId) : (c.flow owner).stored failureId = [] :=
  Flow.stored_of_label (.exit true) owner (by rw [labels_flow]; rfl)

/-- The code of a body is put after the entry and the two exits. -/
theorem stores_flow (c : Code) (owner : NodeId) : c.Stores (c.flow owner) none 3 where
  node := by
    intro k n hk
    have hlt : k < c.nodes.length := (List.getElem?_eq_some_iff.mp hk).1
    refine Flow.stored_of_label n.1 n.2 ?_
    rw [labels_flow, flowLabels, List.append_assoc, List.getElem?_append_right (by simp),
      List.getElem?_append_left (by simpa using hlt)]
    simp [hk]
  target := by
    intro way t ht
    cases way with
    | returns =>
        cases ht
        exact c.stored_exit owner
    | throws =>
        cases ht
        exact c.stored_failure owner
    | breaks | continues => cases ht

/-- What may be stored after a body on the way to an exit: nothing, if the body ends there. -/
def toExit (e : InstrId) : Rest := fun o => {w | w = [] ∧ o.exit? = some e}

/-- What may be stored after an instruction of a body on the way to an exit. -/
def restOfBody (c : Code) (e : InstrId) (i : InstrId) : Set (List NodeId) :=
  if i = entryId then c.after (toExit e)
  else if i = exitId ∨ i = failureId then {w | w = [] ∧ i = e}
  else if i = c.sinkId then ∅
  else c.rest (toExit e) 3 i

theorem fits_flow (c : Code) (owner : NodeId) (e : InstrId) :
    c.Fits (c.flow owner) (c.restOfBody e) (toExit e) none (some entryId) 3 where
  stores := c.stores_flow owner
  own := by
    intro i h3 hlt
    have h0 : i ≠ entryId := fun h => absurd (h ▸ h3) (by decide)
    have h1 : i ≠ exitId := fun h => absurd (h ▸ h3) (by decide)
    have h2 : i ≠ failureId := fun h => absurd (h ▸ h3) (by decide)
    have hs : i ≠ c.sinkId := Nat.ne_of_lt hlt
    simp [restOfBody, h0, h1, h2, hs]
  start := by
    intro i hi
    cases hi
    simp [restOfBody]
  target := by
    rintro way t ht w hw
    have h : t = exitId ∨ t = failureId := by
      cases way with
      | returns => exact .inl (Option.some.inj ht).symm
      | throws => exact .inr (Option.some.inj ht).symm
      | breaks | continues => cases ht
    have h0 : t ≠ entryId := by rcases h with rfl | rfl <;> decide
    obtain ⟨rfl, rfl⟩ : w = [] ∧ t = e := by simpa [restOfBody, h0, h] using hw
    exact ⟨rfl, ht⟩

theorem restOfBody_sink (c : Code) (e : InstrId) : c.restOfBody e c.sinkId = ∅ := by
  have h (k : InstrId) (hk : k < 3) : c.sinkId ≠ k := by
    have hs : c.sinkId = 3 + c.size := rfl
    lia
  simp [restOfBody, h entryId (by decide), h exitId (by decide), h failureId (by decide)]

theorem restOfBody_exit (c : Code) (e : InstrId) :
    c.restOfBody e exitId = {w | w = [] ∧ exitId = e} := by
  have h : exitId ≠ entryId := by decide
  simp [restOfBody, h]

/-- All edges of the graph of a body respect what may be stored on the way to an exit. -/
theorem succs_restOfBody (c : Code) (owner : NodeId) (e x y : InstrId)
    (h : y ∈ (c.flow owner).succs x) (w : List NodeId) (hw : w ∈ c.restOfBody e y) :
    (c.flow owner).stored y ++ w ∈ c.restOfBody e x := by
  obtain ⟨hedges, hout⟩ := (c.fits_flow owner e).edges_rest
  rw [mem_succs_flow] at h
  rcases mem_flowEdges.mp h with h | ⟨hx, rfl⟩ | ⟨rfl, rfl⟩ | ⟨rfl, rfl⟩
  · exact hedges x y h w hw
  · rw [restOfBody_exit] at hw
    obtain ⟨rfl, rfl⟩ := hw
    rw [stored_exit]
    exact hout x hx ⟨rfl, rfl⟩
  · rw [restOfBody_sink] at hw
    exact hw.elim
  · rw [restOfBody_sink] at hw
    exact hw.elim

/-- **Paths to an exit are runs.** The stores that can be read along the paths from the entry of
the graph of a body to one of its exits are those of the runs that end there. -/
theorem leads_exit_iff (c : Code) (owner : NodeId) (w : List NodeId) {e : InstrId}
    (he : e = exitId ∨ e = failureId) :
    (c.flow owner).Leads entryId w e ↔ ∃ o, c.Runs w o ∧ o.exit? = some e := by
  constructor
  · rintro ⟨p, hp, rfl⟩
    -- nothing is left to store at the end of the path, and the sets carry this back to the entry
    have hend : [] ∈ c.restOfBody e e := by
      have h0 : e ≠ entryId := by rcases he with rfl | rfl <;> decide
      simp [restOfBody, h0, he]
    obtain ⟨w, hw, heq⟩ := hp.writes_mem (c.succs_restOfBody owner e) hend
    obtain ⟨u, o, v, hu, ⟨rfl, ho⟩, rfl⟩ : w ∈ c.after (toExit e) := by
      simpa [restOfBody] using hw
    simp only [Flow.writes, List.flatMap_cons, List.append_cancel_left_eq] at heq
    rw [Flow.writes, heq, List.append_nil]
    exact ⟨o, hu, ho⟩
  · rintro ⟨o, hrun, ho⟩
    have hedges : c.Embeds (c.flow owner) none (some entryId) 3 := fun x y h =>
      (c.mem_succs_flow owner).mpr (mem_flowEdges.mpr (.inl h))
    cases o with
    | leaves way => exact (hrun.leads (c.stores_flow owner) hedges ho).1
    | completes =>
        obtain ⟨b, hb⟩ := hrun.out_eq_some rfl entryId 3
        cases ho
        refine (hrun.leads (c.stores_flow owner) hedges hb).1.before ?_ (c.stored_exit owner)
        exact (c.mem_succs_flow owner).mpr (mem_flowEdges.mpr (.inr (.inl ⟨hb, rfl⟩)))

end Code

end ComponentAudit
