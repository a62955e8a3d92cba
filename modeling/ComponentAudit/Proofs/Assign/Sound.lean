import ComponentAudit.Proofs.Assign.Exact
import ComponentAudit.Proofs.Flow.Spine
import ComponentAudit.Tree.Draft

set_option autoImplicit false

/-! # What the state at the end of a lambda promises

With cycles a state can be wrong: an instruction of a cycle that the walk enters by a side door
is closed while one of its predecessors is pending, and what it then forgets is remembered for
good. A graph has a spine (`Flow.Spine`) when this does no harm to some of its instructions: those
on the spine are ranked, and every path that leads to one of them passes a lower one right before
it in the graph, which is not pending any more when it is looked at.

Main statements:

* `Solver.assigns_of_spine`: in a graph with a spine a field that the state assigns is written on
  every path.
* `Source.written_on_every_path`: this holds at the end of a lambda for all paths that do not
  return from a loop, if no condition of a loop has a return.
* `Source.unwritten_return_from_loop`: it fails for a path that returns from a loop.
-/

namespace ComponentAudit

namespace Solver

/-- Whether every path from the entry to an instruction writes a field, paths with something
shut left out. -/
def Assigns (s : Solver) (shut : InstrId → Prop) (fld : Field) (i : InstrId) : Prop :=
  ∀ p, s.flow.Arrives shut p i → ∃ j ∈ p, (s.writeOf? fld j).isSome = true

variable {s : Solver} {shut : InstrId → Prop} {root : InstrId} (S : s.flow.Spine shut root)

/-- What holds of the states found while an instruction is scanned. -/
structure Watch (memo : Memo) (v : InstrId) : Prop where
  fit : s.Fit memo
  opened : (memo.find? v).isSome = true
  turn : s.flow.eligible v = true ∨ v = root
  guarded : ∀ g u, S.guards g u → s.flow.eligible g = true → (memo.find? u).isSome = true →
    (memo.find? g).isSome = true
  gated : ∀ g, S.gates g v → s.flow.eligible g = true → (memo.find? g).isSome = true ∨
    ∀ w, S.on w → memo.find? w = some .pending → S.rank g < S.rank w
  above : S.on v → ∀ w, S.on w → memo.find? w = some .pending → S.rank v ≤ S.rank w
  sound : ∀ w state, S.on w → memo.find? w = some state →
    state = .pending ∨
      (∃ k, state = .known k) ∧ ∀ fld, state.assigns fld = true → s.Assigns shut fld w

/-- The lower predecessors among those looked at so far: something is known, and what is known to
be assigned is written on every path to each of them. -/
def Heeds (v : InstrId) (past : List InstrId) (m : Merge) : Prop :=
  ∀ d ∈ past, S.on v → S.on d → S.rank d < S.rank v → s.flow.eligible d = true →
    m.assigned ≠ none ∧ ∀ fld, ((m.assigned.getD []).get? fld).isSome = true → s.Assigns shut fld d

variable {S}

theorem heeds_nil {v : InstrId} {m : Merge} : Heeds S v [] m :=
  fun _ hd => absurd hd List.not_mem_nil

/-- A known state that is joined takes nothing back. -/
theorem isSome_get?_of_join {t : Tree} {m : Merge} {k : Knowledge} {fld : Field}
    (h : (((m.join t (.known k)).assigned.getD []).get? fld).isSome = true) :
    (k.assigned.get? fld).isSome = true ∧
      (m.assigned ≠ none → ((m.assigned.getD []).get? fld).isSome = true) := by
  cases hm : m.assigned with
  | none => exact ⟨by simpa [Merge.join, hm] using h, fun hne => absurd rfl hne⟩
  | some A =>
      simp only [Merge.join, hm, Option.getD_some, Assigned.get?_meet] at h
      cases ha : A.get? fld with
      | none => simp [ha] at h
      | some a =>
          cases hk : k.assigned.get? fld with
          | none => simp [ha, hk] at h
          | some b => simp [ha]

/-- Joining a state keeps what is known of the lower predecessors. -/
theorem Heeds.join {v p : InstrId} {past : List InstrId} {m : Merge} {state : State}
    (h : Heeds S v past m)
    (hp : S.on v → S.on p → S.rank p < S.rank v → (∃ k, state = .known k) ∧
      ∀ fld, state.assigns fld = true → s.Assigns shut fld p) :
    Heeds S v (past ++ [p]) (m.join s.tree state) := by
  intro d hd hv hon hlt hel
  rcases List.mem_append.mp hd with hd | hd
  · obtain ⟨hne, hall⟩ := h d hd hv hon hlt hel
    cases state with
    | empty => exact ⟨hne, hall⟩
    | pending => exact ⟨hne, hall⟩
    | known k =>
        refine ⟨by simp [Merge.join], fun fld hfld => hall fld ?_⟩
        exact (isSome_get?_of_join hfld).2 hne
  · obtain rfl := List.mem_singleton.mp hd
    obtain ⟨⟨k, rfl⟩, hall⟩ := hp hv hon hlt
    exact ⟨by simp [Merge.join], fun fld hfld => hall fld (isSome_get?_of_join hfld).1⟩

/-- A predecessor that is not eligible does not count. -/
theorem Heeds.pass {v p : InstrId} {past : List InstrId} {m : Merge} (h : Heeds S v past m)
    (hp : s.flow.eligible p = false) : Heeds S v (past ++ [p]) m := by
  intro d hd hv hon hlt hel
  rcases List.mem_append.mp hd with hd | hd
  · exact h d hd hv hon hlt hel
  · obtain rfl := List.mem_singleton.mp hd
    rw [hp] at hel
    cases hel

/-- What is assigned when an instruction on the spine is closed is written on every path to it. -/
theorem Heeds.close (hl : s.flow.Linked) {v : InstrId} {m : Merge} (hv : S.on v)
    (h : Heeds S v (s.flow.preds v) m) (hnil : s.flow.preds v = [] → m.assigned = none)
    {fld : Field} (hfld : (s.close v m).assigns fld = true) : s.Assigns shut fld v := by
  rintro p ⟨hp, hfail⟩
  rw [State.assigns, get?_close] at hfld
  cases hw : s.writeOf? fld v with
  | some a => exact ⟨v, hp.last_mem, by rw [hw]; rfl⟩
  | none =>
      rw [hw, Option.none_or] at hfld
      rcases hp.lastEdge with ⟨rfl, -⟩ | ⟨q, u, hq, hu, rfl⟩
      · rw [hnil S.entry_preds] at hfld
        cases hfld
      · -- the path has passed a lower predecessor, which the merge has heeded
        have harrives : s.flow.Arrives shut q u :=
          ⟨hq, fun j hj => hfail j (List.mem_append_left _ hj)⟩
        obtain ⟨d, hd, hon, hlt, hpred⟩ := S.passes hv (hl.mem_iff.mp hu) harrives
        obtain ⟨q', hq', hpre⟩ := hq.upTo hd
        have hel : s.flow.eligible d = true := by
          simp [Flow.eligible, S.live hq', (harrives.2 d hd).1]
        obtain ⟨j, hj, hwrite⟩ := (h d hpred hv hon hlt hel).2 fld hfld q'
          ⟨hq', fun j hj => harrives.2 j (hpre.subset hj)⟩
        exact ⟨j, List.mem_append_left _ (hpre.subset hj), hwrite⟩

/-- Opening a predecessor: what holds of the states found holds for its own scan. -/
theorem Watch.opening {memo : Memo} {v p : InstrId} {past rest : List InstrId}
    (h : Watch S memo v) (hv : s.flow.preds v = past ++ p :: rest)
    (hpast : ∀ q ∈ past, s.flow.eligible q = true → (memo.find? q).isSome = true)
    (he : s.flow.eligible p = true) (hp : memo.find? p = none) :
    Watch S (memo.put p .pending) p := by
  have hmem : p ∈ s.flow.preds v := by simp [hv]
  have hsize : p < memo.size := by
    rw [h.fit.size_eq]
    exact h.fit.lt_size hmem
  refine ⟨h.fit.put p _, by rw [Memo.find?_put_self hsize]; rfl, .inl he, ?_, ?_, ?_, ?_⟩
  · -- a guard of the predecessor guards what is being scanned, or is that itself
    intro g u hg hel hu
    refine Memo.isSome_find?_put ?_ _
    by_cases hup : u = p
    · subst hup
      rcases S.guards_step hg h.turn hmem with hg | rfl
      · exact h.guarded g v hg hel h.opened
      · exact h.opened
    · rw [Memo.find?_put_ne hup] at hu
      exact h.guarded g u hg hel hu
  · intro g hg hel
    -- what is behind a gate is not on the spine, so the pending ones there are the same
    have hpend (w : InstrId) (hon : S.on w) (hw : (memo.put p .pending).find? w = some .pending) :
        memo.find? w = some .pending := by
      have hwp : w ≠ p := fun hwp => S.off_of_gates hg (hwp ▸ hon)
      rwa [Memo.find?_put_ne hwp] at hw
    rcases S.gates_step hg h.turn hv with hg | hg | rfl | hg | ⟨hon, hlt⟩
    · rcases h.gated g hg hel with hopen | hbelow
      · exact .inl (Memo.isSome_find?_put hopen _)
      · exact .inr fun w hw hwp => hbelow w hw (hpend w hw hwp)
    · exact .inl (Memo.isSome_find?_put (h.guarded g v hg hel h.opened) _)
    · exact .inl (Memo.isSome_find?_put h.opened _)
    · exact .inl (Memo.isSome_find?_put (hpast g hg hel) _)
    · exact .inr fun w hw hwp => Nat.lt_of_lt_of_le hlt (h.above hon w hw (hpend w hw hwp))
  · -- the spine is opened from above; from something that it guards or is the gate of it cannot be
    -- opened, since it would have been met before
    intro hon w hw hpend
    by_cases hwp : w = p
    · rw [hwp]
    · rw [Memo.find?_put_ne hwp] at hpend
      rcases S.on_step hon hmem h.turn with ⟨hv, hlt⟩ | hg | hg | rfl
      · exact Nat.le_of_lt (Nat.lt_of_lt_of_le hlt (h.above hv w hw hpend))
      · have := h.guarded p v hg he h.opened
        rw [hp] at this
        cases this
      · rcases h.gated p hg he with hopen | hbelow
        · rw [hp] at hopen
          cases hopen
        · exact Nat.le_of_lt (hbelow w hw hpend)
      · have := h.opened
        rw [hp] at this
        cases this
  · intro w state hw hstate
    by_cases hwp : w = p
    · subst hwp
      rw [Memo.find?_put_self hsize] at hstate
      exact .inl (Option.some.inj hstate).symm
    · rw [Memo.find?_put_ne hwp] at hstate
      exact h.sound w state hw hstate

/-- Closing a predecessor: the scan that it was opened from goes on. -/
theorem Watch.closing {memo memo₁ : Memo} {v p : InstrId} {m₁ : Merge} (h : Watch S memo v)
    (h₁ : s.Scan (memo.put p .pending) (s.flow.preds p) {} memo₁ m₁) (hw : Watch S memo₁ p)
    (hclose : S.on p → ∀ fld, (s.close p m₁).assigns fld = true → s.Assigns shut fld p) :
    Watch S (memo₁.put p (s.close p m₁)) v := by
  have hpend {w : InstrId} (hw : (memo₁.put p (s.close p m₁)).find? w = some .pending) :
      memo.find? w = some .pending :=
    pending_of_close (h₁.size_eq.trans (Memo.size_put ..)) h₁.pending hw
  have hopened {w : InstrId} (hw : (memo.find? w).isSome = true) :
      ((memo₁.put p (s.close p m₁)).find? w).isSome = true :=
    Memo.isSome_find?_put (h₁.isSome_find? (Memo.isSome_find?_put hw _)) _
  refine ⟨hw.fit.put p _, hopened h.opened, h.turn, ?_, ?_, ?_, ?_⟩
  · intro g u hg hel hu
    refine Memo.isSome_find?_put (hw.guarded g u hg hel ?_) _
    by_cases hup : u = p
    · rw [hup]
      exact hw.opened
    · rwa [Memo.find?_put_ne hup] at hu
  · intro g hg hel
    exact (h.gated g hg hel).imp hopened fun hbelow w hon hw => hbelow w hon (hpend hw)
  · intro hv w hon hw
    exact h.above hv w hon (hpend hw)
  · intro w state hon hstate
    rw [Memo.find?_put] at hstate
    split at hstate
    · next hwp =>
      obtain ⟨rfl, -⟩ := hwp
      rw [← Option.some.inj hstate]
      exact .inr ⟨s.close_eq_known w m₁, hclose hon⟩
    · exact hw.sound w state hon hstate

/-- **A scan of a graph with a spine is sound.** The lower predecessors of an instruction on the
spine are not pending when it is scanned. -/
theorem Scan.sound (hl : s.flow.Linked) {memo memo' : Memo} {rest : List InstrId} {m m' : Merge}
    (h : s.Scan memo rest m memo' m') {v : InstrId} {past : List InstrId}
    (hv : s.flow.preds v = past ++ rest)
    (hpast : ∀ q ∈ past, s.flow.eligible q = true → (memo.find? q).isSome = true)
    (hw : Watch S memo v) (hh : Heeds S v past m) :
    Watch S memo' v ∧ Heeds S v (s.flow.preds v) m' := by
  induction h generalizing v past with
  | done => exact ⟨hw, by rw [hv, List.append_nil]; exact hh⟩
  | @pass _ _ p rest _ _ he _ ih =>
      have hv' : s.flow.preds v = (past ++ [p]) ++ rest := by rw [hv]; simp
      refine ih hv' ?_ hw (hh.pass he)
      intro q hq hel
      rcases List.mem_append.mp hq with hq | hq
      · exact hpast q hq hel
      · obtain rfl := List.mem_singleton.mp hq
        rw [he] at hel
        cases hel
  | @found memo _ p rest _ _ state he hp _ ih =>
      have hv' : s.flow.preds v = (past ++ [p]) ++ rest := by rw [hv]; simp
      refine ih hv' ?_ hw (hh.join ?_)
      · intro q hq hel
        rcases List.mem_append.mp hq with hq | hq
        · exact hpast q hq hel
        · rw [List.mem_singleton.mp hq, hp]
          rfl
      · intro hon honp hlt
        refine (hw.sound p state honp hp).resolve_left ?_
        rintro rfl
        -- what is pending on the spine is not below the instruction that is being scanned
        exact absurd (hw.above hon p honp hp) (Nat.not_le_of_lt hlt)
  | @opened memo memo₁ _ p rest _ m₁ _ he hp h₁ _ ih₁ ih₂ =>
      have hv' : s.flow.preds v = (past ++ [p]) ++ rest := by rw [hv]; simp
      obtain ⟨hw₁, hh₁⟩ := ih₁ (List.nil_append _).symm (by simp) (hw.opening hv hpast he hp)
        heeds_nil
      have hclose (hon : S.on p) (fld : Field) (hfld : (s.close p m₁).assigns fld = true) :
          s.Assigns shut fld p := by
        refine hh₁.close hl hon ?_ hfld
        intro hnil
        rw [hnil] at h₁
        cases h₁
        rfl
      refine ih₂ hv' ?_ (hw.closing h₁ hw₁ hclose)
        (hh.join fun _ hon _ => ⟨s.close_eq_known p m₁, hclose hon⟩)
      intro q hq hel
      rcases List.mem_append.mp hq with hq | hq
      · exact Memo.isSome_find?_put
          (h₁.isSome_find? (Memo.isSome_find?_put (hpast q hq hel) _)) _
      · rw [List.mem_singleton.mp hq]
        exact Memo.isSome_find?_put hw₁.opened _

/-- **A field that the state at the root of a spine assigns is written on every path.** -/
theorem assigns_of_spine (S : s.flow.Spine shut root) (hl : s.flow.Linked) (hroot : S.on root)
    (hsize : root < s.flow.size) {fld : Field}
    (h : (s.solve (Memo.empty s.flow) root).1.assigns fld = true) : s.Assigns shut fld root := by
  obtain ⟨memo', m', hscan, hsolve⟩ := exists_scan_start (fit_empty hl) root
  have hwatch : Watch S (Memo.start s.flow root) root := by
    refine ⟨(fit_empty hl).put root _, by rw [Memo.find?_start_self hsize]; rfl, .inr rfl, ?_, ?_,
      ?_, ?_⟩
    · intro g u hg _ hu
      obtain ⟨state, hstate⟩ := Option.isSome_iff_exists.mp hu
      exact absurd ((Memo.of_find?_start hstate).1 ▸ hg) (S.root_free g)
    · intro g hg
      exact absurd hroot (S.off_of_gates hg)
    · intro _ w _ hpend
      rw [(Memo.of_find?_start hpend).1]
    · intro w state _ hstate
      exact .inl (Memo.of_find?_start hstate).2
  obtain ⟨-, hheeds⟩ := hscan.sound hl (List.nil_append _).symm (by simp) hwatch heeds_nil
  rw [hsolve] at h
  refine hheeds.close hl hroot ?_ h
  intro hnil
  rw [hnil] at hscan
  cases hscan
  rfl

theorem writeOf?_eq_some {s : Solver} {fld : Field} {i : InstrId} {a : Assignment}
    (h : s.writeOf? fld i = some a) :
    ∃ g, s.matcher i = some (.field g a) ∧ g.decl = fld.decl := by
  unfold writeOf? at h
  split at h
  · next g b hmatch =>
    obtain ⟨hdecl, hb⟩ := Option.ite_none_right_eq_some.mp h
    exact ⟨g, by rw [hmatch, Option.some.inj hb], hdecl⟩
  · cases h

/-- The graph of a body has a spine, so its state at the end is right about the paths that do not
return from a loop. -/
theorem assigns_at_sink {t : Tree} {m : Matcher} {c : Code} {owner : NodeId}
    (htests : c.testsHold = true) {fld : Field}
    (h : (atSink { tree := t, flow := c.flow owner, matcher := m }).assigns fld = true)
    {p : List InstrId} (hp : (c.flow owner).Path (c.flow owner).entry p (c.flow owner).sink)
    (hfail : ∀ j ∈ p, ((c.flow owner).instr j).isFailure = false)
    (hreturn : ∀ j ∈ p, ¬ c.loopReturnAt 3 j) :
    ∃ j ∈ p, ∃ g a, m j = some (.field g a) ∧ g.decl = fld.decl := by
  have hroot : (c.flowSpine owner htests).on c.sinkId := .inr (.inr (.inl rfl))
  have hsize : c.sinkId < (c.flow owner).size := by simp
  rw [Code.sink_flow] at hp
  rw [atSink, Code.sink_flow] at h
  obtain ⟨j, hj, hwrite⟩ := assigns_of_spine
    (s := { tree := t, flow := c.flow owner, matcher := m }) (c.flowSpine owner htests)
    (c.linked_flow owner) hroot hsize h p ⟨hp, fun j hj => ⟨hfail j hj, hreturn j hj⟩⟩
  obtain ⟨a, ha⟩ := Option.isSome_iff_exists.mp hwrite
  obtain ⟨g, hmatch, hdecl⟩ := writeOf?_eq_some ha
  exact ⟨j, hj, g, a, hmatch, hdecl⟩

end Solver

namespace Source

theorem flow?_eq_some_iff {s : Source} {owner body : NodeId} {f : Flow}
    (hb : s.bodyOf? owner = some body) :
    s.flow? owner = some f ↔ s.bodiesKnown = true ∧ (s.bodyCode body).flow owner = f := by
  simp [flow?, hb]

/-- What the pattern of a construction lambda fits is a write. -/
theorem write_of_builderMatcher {s : Source} {f : Flow} {lambda : NodeId} {props : TypeExpr}
    {fields : List Field} {i : InstrId} {w : Write}
    (h : s.builderMatcher f lambda props fields i = some w) :
    ∃ place value receiver, (f.instr i).op = .write place value receiver := by
  unfold builderMatcher at h
  split at h
  · next place value receiver hop => exact ⟨place, value, receiver, hop⟩
  · cases h

/-- **A field that the state at the end of a lambda assigns is written on every path** that does
not fail and does not return from a loop, if no condition of a loop has a return. -/
theorem written_on_every_path {s : Source} {lambda body : NodeId} {f : Flow}
    (hf : s.flow? lambda = some f) (hb : s.bodyOf? lambda = some body)
    (htests : (s.bodyCode body).testsHold = true) {props : TypeExpr} {fields : List Field}
    {fld : Field}
    (h : (Solver.atSink
      { tree := s.tree, flow := f, matcher := s.builderMatcher f lambda props fields }).assigns
        fld = true)
    {p : List InstrId} (hp : f.Path f.entry p f.sink)
    (hfail : ∀ j ∈ p, (f.instr j).isFailure = false)
    (hreturn : ∀ j ∈ p, ¬ (s.bodyCode body).loopReturnAt 3 j) :
    ∃ j ∈ p, (∃ place value receiver, (f.instr j).op = .write place value receiver) ∧
      ∃ g a, s.builderMatcher f lambda props fields j = some (.field g a) ∧ g.decl = fld.decl := by
  obtain ⟨-, rfl⟩ := (flow?_eq_some_iff hb).mp hf
  obtain ⟨j, hj, g, a, hmatch, hdecl⟩ := Solver.assigns_at_sink htests h hp hfail hreturn
  exact ⟨j, hj, write_of_builderMatcher hmatch, g, a, hmatch, hdecl⟩

/-- A component `C` whose props have the field `f`, and a function with the given parameters that
constructs it with a lambda of the given statements. Answers the function. -/
def constructionOf (parameters statements : Draft (List NodeId)) : Draft NodeId := do
  let f ← Draft.property "f" (some (.simple "Int")) true
  let props ← Draft.interface "CProps" [.simple "RProps"] [f]
  let _ ← Draft.declare props
  let base ← Draft.supertype (.generic "RComponent" [.simple "CProps", .simple "RState"]) (some [])
  let component ← Draft.classDecl "C" none [base] []
  let _ ← Draft.declare component
  let parameters ← parameters
  let name ← Draft.classRef "C"
  let lambda ← Draft.lambda (← statements)
  let call ← Draft.call "child" [name] (some lambda)
  let decl : FunctionDecl := { name := some "c", receiver := some (.simple "RBuilder") }
  let function ← Draft.function decl parameters call
  Draft.declare function

/-- The statement `attrs.f = 1`. -/
def assignF : Draft NodeId := do
  let attrs ← Draft.reference "attrs"
  let f ← Draft.reference "f"
  let place ← Draft.select attrs f
  let one ← Draft.literal "1"
  Draft.assign place one

/-- The statements `while (c) { if (d) { attrs.f = 1; return }; break }; attrs.f = 1`. -/
def returningLoop : Draft (List NodeId) := do
  let c ← Draft.reference "c"
  let d ← Draft.reference "d"
  let first ← assignF
  let leave ← Draft.returns none
  let test ← Draft.ifElse d [first, leave] none
  let stop ← Draft.breaks
  let loop ← Draft.whileLoop c [test, stop]
  let last ← assignF
  return [loop, last]

/-- The path that goes into the loop and leaves it by the break writes the field at the end. -/
theorem written_on_every_path_returningLoop :
    let s : Source :=
      { tree := ((constructionOf (pure []) returningLoop).run (Tree.ofFile "F")).2
        framework := {} }
    let path := [0, 3, 4, 6, 11, 12, 5, 13, 14, 15, 1, 16]
    s.bodyOf? 26 = some 25 ∧ (s.bodyCode 25).testsHold = true ∧
      (∀ j ∈ path, ¬ (s.bodyCode 25).loopReturnAt 3 j) ∧ (s.bodyCode 25).loopReturnAt 3 10 ∧
      ∃ f, s.flow? 26 = some f ∧ f.Path f.entry path f.sink ∧
        ∃ j ∈ path, ∃ g a, s.builderMatcher f 26 (.simple "CProps") [s.tree.fieldAt 1] j =
          some (.field g a) ∧ g.decl = 1 := by
  intro s path
  have hb : s.bodyOf? 26 = some 25 := by decide +kernel
  have htests : (s.bodyCode 25).testsHold = true := by decide +kernel
  have hreturn : ∀ j ∈ path, ¬ (s.bodyCode 25).loopReturnAt 3 j := by decide +kernel
  have hf : s.flow? 26 = some ((s.bodyCode 25).flow 26) := (flow?_eq_some_iff hb).mpr ⟨rfl, rfl⟩
  have hp : ((s.bodyCode 25).flow 26).Path ((s.bodyCode 25).flow 26).entry path
      ((s.bodyCode 25).flow 26).sink := by decide +kernel
  have hassigns : (Solver.atSink
      { tree := s.tree
        flow := (s.bodyCode 25).flow 26
        matcher := s.builderMatcher ((s.bodyCode 25).flow 26) 26 (.simple "CProps")
          [s.tree.fieldAt 1] }).assigns (s.tree.fieldAt 1) = true := by decide +kernel
  obtain ⟨j, hj, -, g, a, hmatch, hdecl⟩ :=
    written_on_every_path hf hb htests hassigns hp (by decide +kernel) hreturn
  exact ⟨hb, htests, hreturn, by decide +kernel, _, hf, hp, j, hj, g, a, hmatch, hdecl⟩

/-- The statements `while (c) { if (d) { if (e) { attrs.f = 1; return }; attrs.f = 1 };
if (g) { return } }; attrs.f = 1`. -/
def returningTwice : Draft (List NodeId) := do
  let c ← Draft.reference "c"
  let d ← Draft.reference "d"
  let e ← Draft.reference "e"
  let first ← assignF
  let leave ← Draft.returns none
  let inner ← Draft.ifElse e [first, leave] none
  let second ← assignF
  let outer ← Draft.ifElse d [inner, second] none
  let g ← Draft.reference "g"
  let leave ← Draft.returns none
  let test ← Draft.ifElse g [leave] none
  let loop ← Draft.whileLoop c [outer, test]
  let last ← assignF
  return [loop, last]

/-- The state can be wrong about a path that returns from a loop: here it assigns the field, and
the path that takes the second return without the first `if` does not write it. -/
theorem unwritten_return_from_loop :
    let s : Source :=
      { tree := ((constructionOf (pure []) returningTwice).run (Tree.ofFile "F")).2
        framework := {} }
    s.tree.WellFormed ∧ ∃ f, s.flow? 37 = some f ∧
      let matcher := s.builderMatcher f 37 (.simple "CProps") [s.tree.fieldAt 1]
      (Solver.atSink { tree := s.tree, flow := f, matcher }).assigns (s.tree.fieldAt 1) = true ∧
        ∃ p, f.Path f.entry p f.sink ∧ (∀ j ∈ p, (f.instr j).isFailure = false) ∧
          ∀ j ∈ p, matcher j = none := by
  intro s
  have hb : s.bodyOf? 37 = some 36 := by decide +kernel
  refine ⟨by decide +kernel, (s.bodyCode 36).flow 37, (flow?_eq_some_iff hb).mpr ⟨rfl, rfl⟩,
    by decide +kernel, [0, 3, 4, 6, 16, 17, 18, 1, 23], ?_⟩
  decide +kernel

end Source

end ComponentAudit
