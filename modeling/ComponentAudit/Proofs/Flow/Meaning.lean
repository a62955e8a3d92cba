import ComponentAudit.Proofs.Flow.Runs
import ComponentAudit.Proofs.Tree.WellFormed

set_option autoImplicit false

/-! # What the code of a body does

The runs of a body as its code has them: which assignments are performed, in order, and how the
run ends (`Tree.Runs`). A conditional takes either branch, a loop stops or goes on each time its
condition has been run, `break` and `continue` act on the innermost loop whose body they stand in.
Lambdas and local declarations are not looked into.

What is run of a node is what its code has instructions for, and that is not all that the node is
written to do. Of `a.g(b)` only `a` is run: the call behind the point is read as a member, and its
arguments are not run. A loop, a block or a jump that stands where a value is wanted is a plain
evaluation, so `x = throw e` stores. `Proofs/Flow/Performed` has the runs without these gaps and
says when they are the same.

Main statement: `Source.flow_runs`. Along the paths of the flow graph of a body one reads exactly
the assignments of its runs: to the normal exit those of the runs that complete or return, to the
other exit those of the runs that throw.
-/

namespace ComponentAudit

/-- What a node does when it is run. -/
inductive Form where
  /-- Evaluates its operands. -/
  | evaluation
  /-- Evaluates its operands and stores. -/
  | store
  /-- Evaluates its operands and leaves. -/
  | leave (way : Leave)
  /-- Runs a condition and one of two branches. -/
  | choice
  /-- Runs a condition and a body again and again. -/
  | repetition
  /-- Runs its statements. -/
  | listing
deriving DecidableEq

/-- A node that is run, or several nodes one after the other. -/
inductive Phrase where
  | one (usage : Usage) (id : NodeId)
  | all (usage : Usage) (ids : List NodeId)

namespace Tree

/-- What the code of a node does. Where a value is wanted, a loop, a block or a jump is only
evaluated. -/
def form (t : Tree) (usage : Usage) (id : NodeId) : Form :=
  match usage, t.kind id with
  | _, .assign => if (t.operands? id).isSome then .store else .evaluation
  | _, .ifElse => .choice
  | .statement, .whileLoop => .repetition
  | .statement, .block => .listing
  | .statement, .returns => .leave .returns
  | .statement, .throws => .leave .throws
  | .statement, .breaks => .leave .breaks
  | .statement, .continues => .leave .continues
  | _, _ => .evaluation

/-- The child at some place, if there is one. -/
def part (t : Tree) (id : NodeId) (place : Nat) : List NodeId := (t.children id)[place]?.toList

/-- What the code evaluates of a place before something is stored there: the receiver of a
member. -/
def placeOperands (t : Tree) (place : NodeId) : List NodeId :=
  match t.kind place with
  | .select => ((t.operands? place).map (·.1)).toList
  | .reference _ => []
  | _ => [place]

/-- What the code of a node evaluates before it does what it does. Of a selection that is the
receiver; the arguments of a call behind the point are not evaluated. -/
def operandsOf (t : Tree) (usage : Usage) (id : NodeId) : List NodeId :=
  match usage, t.kind id with
  | _, .assign =>
    match t.operands? id with
    | some (place, value) => t.placeOperands place ++ [value]
    | none => []
  | _, .select => ((t.operands? id).map (·.1)).toList
  | _, .call => t.arguments id ++ (t.trailingLambda? id).toList
  | .statement, .returns | .statement, .throws => t.part id 0
  | _, _ => []

/-- What runs other statements has no operands. -/
theorem operandsOf_eq_nil {t : Tree} {usage : Usage} {id : NodeId}
    (h : t.form usage id = .choice ∨ t.form usage id = .repetition ∨ t.form usage id = .listing) :
    t.operandsOf usage id = [] := by
  cases usage <;> cases hk : t.kind id <;> simp_all [form, operandsOf] <;> grind

/-- The assignments that the code can perform, in order, and the way to end then. -/
inductive Runs (t : Tree) : Phrase → List NodeId → Outcome → Prop
  | nil {u : Usage} : Runs t (.all u []) [] .completes
  | cons {u : Usage} {id : NodeId} {ids v w : List NodeId} {o : Outcome} :
      Runs t (.one u id) v .completes → Runs t (.all u ids) w o →
      Runs t (.all u (id :: ids)) (v ++ w) o
  | cut {u : Usage} {id : NodeId} {ids v : List NodeId} {way : Leave} :
      Runs t (.one u id) v (.leaves way) → Runs t (.all u (id :: ids)) v (.leaves way)
  | operandLeaves {u : Usage} {id : NodeId} {v : List NodeId} {way : Leave} :
      Runs t (.all .expression (t.operandsOf u id)) v (.leaves way) →
      Runs t (.one u id) v (.leaves way)
  | evaluates {u : Usage} {id : NodeId} {v : List NodeId} :
      t.form u id = .evaluation → Runs t (.all .expression (t.operandsOf u id)) v .completes →
      Runs t (.one u id) v .completes
  | stores {u : Usage} {id : NodeId} {v : List NodeId} :
      t.form u id = .store → Runs t (.all .expression (t.operandsOf u id)) v .completes →
      Runs t (.one u id) (v ++ [id]) .completes
  | leaves {u : Usage} {id : NodeId} {v : List NodeId} {way : Leave} :
      t.form u id = .leave way → Runs t (.all .expression (t.operandsOf u id)) v .completes →
      Runs t (.one u id) v (.leaves way)
  | lists {u : Usage} {id : NodeId} {v : List NodeId} {o : Outcome} :
      t.form u id = .listing → Runs t (.all .statement (t.significant id)) v o →
      Runs t (.one u id) v o
  | testLeaves {u : Usage} {id : NodeId} {v : List NodeId} {way : Leave} :
      t.form u id = .choice ∨ t.form u id = .repetition →
      Runs t (.all .expression (t.part id 0)) v (.leaves way) → Runs t (.one u id) v (.leaves way)
  | chooses {u : Usage} {id : NodeId} {v w : List NodeId} {o : Outcome} {branch : Nat} :
      t.form u id = .choice → branch = 1 ∨ branch = 2 →
      Runs t (.all .expression (t.part id 0)) v .completes →
      Runs t (.all .statement (t.part id branch)) w o → Runs t (.one u id) (v ++ w) o
  | stops {u : Usage} {id : NodeId} {v : List NodeId} :
      t.form u id = .repetition → Runs t (.all .expression (t.part id 0)) v .completes →
      Runs t (.one u id) v .completes
  | again {u : Usage} {id : NodeId} {v w r : List NodeId} {o o' : Outcome} :
      t.form u id = .repetition → Runs t (.all .expression (t.part id 0)) v .completes →
      Runs t (.all .statement (t.part id 1)) w o → o.repeats = true → Runs t (.one u id) r o' →
      Runs t (.one u id) (v ++ w ++ r) o'
  | exits {u : Usage} {id : NodeId} {v w : List NodeId} {o : Outcome} :
      t.form u id = .repetition → Runs t (.all .expression (t.part id 0)) v .completes →
      Runs t (.all .statement (t.part id 1)) w o → o.repeats = false →
      Runs t (.one u id) (v ++ w) o.outside

end Tree

/-! ## Code with the same runs -/

namespace Code

/-- Whether two pieces of code can do the same. -/
def Alike (c d : Code) : Prop := ∀ w o, c.Runs w o ↔ d.Runs w o

theorem Alike.refl (c : Code) : c.Alike c := fun _ _ => .rfl

theorem Alike.trans {c d e : Code} (h : c.Alike d) (h' : d.Alike e) : c.Alike e :=
  fun w o => (h w o).trans (h' w o)

theorem Alike.symm {c d : Code} (h : c.Alike d) : d.Alike c := fun w o => (h w o).symm

theorem runs_skip_iff {w : List NodeId} {o : Outcome} :
    skip.Runs w o ↔ w = [] ∧ o = .completes := by
  constructor
  · rintro ⟨⟩
    exact ⟨rfl, rfl⟩
  · rintro ⟨rfl, rfl⟩
    exact .skip

theorem runs_step_iff {op : Op} {e : NodeId} {w : List NodeId} {o : Outcome} :
    (step op e).Runs w o ↔ w = op.stores e ∧ o = .completes := by
  constructor
  · rintro ⟨⟩
    exact ⟨rfl, rfl⟩
  · rintro ⟨rfl, rfl⟩
    exact .step

theorem runs_leave_iff {way : Leave} {e : NodeId} {w : List NodeId} {o : Outcome} :
    (leave e way).Runs w o ↔ w = [] ∧ o = .leaves way := by
  constructor
  · rintro ⟨⟩
    exact ⟨rfl, rfl⟩
  · rintro ⟨rfl, rfl⟩
    exact .leave

theorem runs_seq_iff {c d : Code} {w : List NodeId} {o : Outcome} :
    (seq c d).Runs w o ↔ (∃ u v, c.Runs u .completes ∧ d.Runs v o ∧ w = u ++ v) ∨
      ∃ way, c.Runs w (.leaves way) ∧ o = .leaves way := by
  constructor
  · intro h
    cases h with
    | seq h₁ h₂ => exact .inl ⟨_, _, h₁, h₂, rfl⟩
    | seqLeaves h => exact .inr ⟨_, h, rfl⟩
  · rintro (⟨u, v, h₁, h₂, rfl⟩ | ⟨way, h, rfl⟩)
    · exact .seq h₁ h₂
    · exact .seqLeaves h

theorem alike_value (n : NodeId) (c : Code) : (value n c).Alike c := by
  intro w o
  constructor
  · rintro ⟨⟩
    assumption
  · exact .value

theorem Alike.seq {c c' d d' : Code} (hc : c.Alike c') (hd : d.Alike d') :
    (seq c d).Alike (seq c' d') := by
  intro w o
  simp only [runs_seq_iff, hc _ _, hd _ _]

theorem alike_seq_skip (c : Code) : (seq c skip).Alike c := by
  intro w o
  cases o <;> simp [runs_seq_iff, runs_skip_iff]

theorem alike_skip_seq (c : Code) : (seq skip c).Alike c := by
  intro w o
  simp [runs_seq_iff, runs_skip_iff]

theorem alike_seq_assoc (a b c : Code) : (seq (seq a b) c).Alike (seq a (seq b c)) := by
  intro w o
  constructor
  · intro h
    cases h with
    | seq h₁ h₃ =>
        cases h₁ with
        | seq h₁ h₂ =>
            rw [List.append_assoc]
            exact .seq h₁ (.seq h₂ h₃)
    | seqLeaves h =>
        cases h with
        | seq h₁ h₂ => exact .seq h₁ (.seqLeaves h₂)
        | seqLeaves h => exact .seqLeaves h
  · intro h
    cases h with
    | seq h₁ h =>
        cases h with
        | seq h₂ h₃ =>
            rw [← List.append_assoc]
            exact .seq (.seq h₁ h₂) h₃
        | seqLeaves h₂ => exact .seqLeaves (.seq h₁ h₂)
    | seqLeaves h => exact .seqLeaves (.seqLeaves h)

/-- An instruction that stores nothing can do nothing. -/
theorem alike_step {op : Op} {e : NodeId} (h : op.stores e = []) : (step op e).Alike skip := by
  intro w o
  rw [runs_step_iff, runs_skip_iff, h]

theorem Alike.branch {e e' : NodeId} {a a' b b' : Code} (ha : a.Alike a') (hb : b.Alike b') :
    (branch e a b).Alike (branch e' a' b') := by
  have one {e e' : NodeId} {a a' b b' : Code} (ha : a.Alike a') (hb : b.Alike b')
      {w : List NodeId} {o : Outcome} (h : (Code.branch e a b).Runs w o) :
      (Code.branch e' a' b').Runs w o := by
    cases h with
    | yes h => exact .yes ((ha _ _).mp h)
    | no h => exact .no ((hb _ _).mp h)
  exact fun w o => ⟨one ha hb, one ha.symm hb.symm⟩

/-- What a loop can do does not get less when its condition and its body can do more. -/
theorem Runs.loop_mono {e : NodeId} {c b c' b' : Code} (hc : ∀ w o, c.Runs w o → c'.Runs w o)
    (hb : ∀ w o, b.Runs w o → b'.Runs w o) {w : List NodeId} {o : Outcome}
    (h : (Code.loop e c b).Runs w o) : (Code.loop e c' b').Runs w o := by
  -- all rounds of the loop are runs of the same code, which the induction has to keep
  generalize hl : Code.loop e c b = l at h
  induction h with
  | stops h => cases hl; exact .stops (hc _ _ h)
  | testLeaves h => cases hl; exact .testLeaves (hc _ _ h)
  | again h₁ h₂ hrep _ _ _ ih => cases hl; exact .again (hc _ _ h₁) (hb _ _ h₂) hrep (ih rfl)
  | exits h₁ h₂ hrep => cases hl; exact .exits (hc _ _ h₁) (hb _ _ h₂) hrep
  | _ => cases hl

theorem Alike.loop {e : NodeId} {c c' b b' : Code} (hc : c.Alike c') (hb : b.Alike b') :
    (loop e c b).Alike (loop e c' b') :=
  fun _ _ => ⟨Runs.loop_mono (fun w o => (hc w o).mp) fun w o => (hb w o).mp,
    Runs.loop_mono (fun w o => (hc w o).mpr) fun w o => (hb w o).mpr⟩

theorem alike_sequence_append (cs ds : List Code) :
    (sequence (cs ++ ds)).Alike (seq (sequence cs) (sequence ds)) := by
  induction cs with
  | nil => exact (alike_skip_seq _).symm
  | cons c cs ih => exact ((Alike.refl c).seq ih).trans (alike_seq_assoc _ _ _).symm

theorem alike_sequence_singleton (c : Code) : (sequence [c]).Alike c := alike_seq_skip c

theorem alike_optional (code : NodeId → Code) (o : Option NodeId) :
    (Source.optional code o).Alike (sequence (o.toList.map code)) := by
  cases o with
  | none => exact .refl _
  | some id => exact (alike_sequence_singleton _).symm

end Code

/-! ## The outline of a node -/

namespace Source

open Code

/-- Code for what a node does, given the code of other nodes. -/
def outline (t : Tree) (code : Usage → NodeId → Code) (usage : Usage) (id : NodeId) : Code :=
  let operands := sequence ((t.operandsOf usage id).map (code .expression))
  let test := sequence ((t.part id 0).map (code .expression))
  let statements (place : Nat) := sequence ((t.part id place).map (code .statement))
  match t.form usage id with
  | .evaluation => operands
  | .store => .seq operands (.step (.write id .unresolved none) id)
  | .leave way => .seq operands (.leave id way)
  | .choice => .seq test (.branch id (statements 1) (statements 2))
  | .repetition => .loop id test (statements 1)
  | .listing => sequence ((t.significant id).map (code .statement))

variable (s : Source)

/-- What is stored at a node does not depend on what the instruction knows of its place. -/
theorem alike_store (place : NodeId) (target : Target) (receiver : Option Receiver)
    {place' : NodeId} (id : NodeId) :
    (step (.write place target receiver) id).Alike (step (.write place' .unresolved none) id) := by
  intro w o
  rw [runs_step_iff, runs_step_iff]
  rfl

theorem alike_assignCode (code : Usage → NodeId → Code) (usage : Usage) (id : NodeId)
    (hk : s.tree.kind id = .assign) :
    (s.assignCode (code .expression) id).Alike (outline s.tree code usage id) := by
  have hform : s.tree.form usage id
      = if (s.tree.operands? id).isSome then .store else .evaluation := by
    cases usage <;> simp [Tree.form, hk]
  have hops : s.tree.operandsOf usage id = match s.tree.operands? id with
      | some (place, stored) => s.tree.placeOperands place ++ [stored]
      | none => [] := by
    cases usage <;> simp [Tree.operandsOf, hk]
  unfold assignCode
  cases ho : s.tree.operands? id with
  | none =>
      simp only [outline, hform, hops, ho]
      exact alike_step rfl
  | some operands =>
      obtain ⟨place, value⟩ := operands
      simp only [outline, hform, hops, ho, Option.isSome_some, if_true]
      -- the place first, then the value, then the store
      have key {pre : Code} (target : Target) (receiver : Option Receiver)
          (hpre : pre.Alike (sequence ((s.tree.placeOperands place).map (code .expression)))) :
          (Code.seq pre
            (.seq (code .expression value) (.step (.write place target receiver) id))).Alike
            (.seq (sequence ((s.tree.placeOperands place ++ [value]).map (code .expression)))
              (.step (.write id .unresolved none) id)) := by
        rw [List.map_append]
        refine (Alike.symm (alike_seq_assoc _ _ _)).trans (.seq ?_ (alike_store _ _ _ _))
        exact (hpre.seq (Alike.symm (alike_sequence_singleton _))).trans
          (Alike.symm (alike_sequence_append _ _))
      have bare (h : s.tree.placeOperands place = []) (target : Target)
          (receiver : Option Receiver) :
          (Code.seq (code .expression value) (.step (.write place target receiver) id)).Alike
            (.seq (sequence ((s.tree.placeOperands place ++ [value]).map (code .expression)))
              (.step (.write id .unresolved none) id)) :=
        (Alike.symm (alike_skip_seq _)).trans (key target receiver (by rw [h]; exact .refl _))
      cases hp : s.tree.kind place with
      | select =>
          cases hs : s.tree.operands? place with
          | none => exact bare (by simp [Tree.placeOperands, hp, hs]) _ _
          | some parts =>
              refine key _ _ ?_
              simp only [Tree.placeOperands, hp, hs]
              exact Alike.symm (alike_sequence_singleton _)
      | reference name => exact bare (by simp [Tree.placeOperands, hp]) _ _
      | _ =>
          refine key _ _ ?_
          simp only [Tree.placeOperands, hp]
          exact Alike.symm (alike_sequence_singleton _)

theorem alike_ifCode (code : Usage → NodeId → Code) (usage : Usage) (id : NodeId)
    (hk : s.tree.kind id = .ifElse) :
    (s.ifCode code id).Alike (outline s.tree code usage id) := by
  have hf : s.tree.form usage id = .choice := by cases usage <;> simp [Tree.form, hk]
  simp only [outline, hf]
  exact (alike_optional _ _).seq ((alike_optional _ _).branch (alike_optional _ _))

/-- A node that only evaluates can do what its operands can. -/
theorem alike_evaluation {code : Usage → NodeId → Code} {usage : Usage} {id : NodeId} {c : Code}
    (hf : s.tree.form usage id = .evaluation)
    (hc : c.Alike (sequence ((s.tree.operandsOf usage id).map (code .expression)))) :
    c.Alike (outline s.tree code usage id) := by
  simpa only [outline, hf] using hc

/-- Where a value is wanted, the code of a node can do what its outline can. -/
theorem alike_outline_expression (n : Nat) (id : NodeId) :
    (s.codeWithin (n + 1) .expression id).Alike
      (outline s.tree (s.codeWithin n) .expression id) := by
  cases hk : s.tree.kind id with
  | assign =>
      have h := s.alike_assignCode (s.codeWithin n) .expression id hk
      simp only [codeWithin, hk]
      exact (alike_value _ _).trans
        ((((Alike.refl _).seq (alike_step rfl)).trans (alike_seq_skip _)).trans h)
  | ifElse =>
      simp only [codeWithin, hk]
      exact (alike_value _ _).trans (s.alike_ifCode (s.codeWithin n) .expression id hk)
  | select =>
      refine s.alike_evaluation (by simp [Tree.form, hk]) ?_
      cases ho : s.tree.operands? id with
      | none =>
          simp only [codeWithin, hk, Tree.operandsOf, ho]
          exact (alike_value _ _).trans (alike_step rfl)
      | some parts =>
          simp only [codeWithin, hk, Tree.operandsOf, ho]
          exact (alike_value _ _).trans
            ((alike_value _ _).trans ((Alike.refl _).seq (alike_step rfl)))
  | call =>
      refine s.alike_evaluation (by simp [Tree.form, hk]) ?_
      simp only [codeWithin, hk, Tree.operandsOf]
      exact (alike_value _ _).trans
        (((Alike.refl _).seq (alike_step rfl)).trans (alike_seq_skip _))
  | _ =>
      refine s.alike_evaluation (by simp [Tree.form, hk]) ?_
      simp only [codeWithin, hk, Tree.operandsOf]
      exact (alike_value _ _).trans (alike_step rfl)

/-- **The code of a node can do what its outline can.** -/
theorem alike_outline (n : Nat) (usage : Usage) (id : NodeId) :
    (s.codeWithin (n + 1) usage id).Alike (outline s.tree (s.codeWithin n) usage id) := by
  have hexpr := s.alike_outline_expression n id
  cases usage with
  | expression => exact hexpr
  | statement =>
      cases hk : s.tree.kind id with
      | assign =>
          simpa only [codeWithin, hk] using s.alike_assignCode (s.codeWithin n) .statement id hk
      | ifElse =>
          simpa only [codeWithin, hk] using s.alike_ifCode (s.codeWithin n) .statement id hk
      | whileLoop =>
          simp only [codeWithin, outline, hk, Tree.form]
          exact (alike_optional _ _).loop (alike_optional _ _)
      | block =>
          simp only [codeWithin, outline, hk, Tree.form]
          exact .refl _
      | returns | throws =>
          simp only [codeWithin, outline, hk, Tree.form, Tree.operandsOf]
          exact (alike_optional _ _).seq (.refl _)
      | breaks | continues =>
          simp only [codeWithin, outline, hk, Tree.form, Tree.operandsOf]
          exact Alike.symm (alike_skip_seq _)
      | blank text | comment text =>
          simp only [codeWithin, outline, hk, Tree.form, Tree.operandsOf]
          exact .refl _
      | function decl | classDecl name | property decl =>
          simp only [codeWithin, outline, hk, Tree.form, Tree.operandsOf]
          exact alike_step rfl
      | _ =>
          -- all other nodes are run as they are evaluated
          simpa only [codeWithin, outline, hk, Tree.form, Tree.operandsOf] using hexpr

end Source

/-! ## What is run lies inside -/

namespace Tree

variable {t : Tree}

theorem mem_children_of_arguments {id x : NodeId} (h : x ∈ t.arguments id) :
    x ∈ t.children id := by
  unfold arguments at h
  split at h
  · exact List.mem_of_mem_tail (List.mem_filter.mp h).1
  · cases h

theorem mem_children_of_trailingLambda? {id x : NodeId} (h : t.trailingLambda? id = some x) :
    x ∈ t.children id := by
  unfold trailingLambda? at h
  split at h
  · obtain ⟨hlast, -⟩ := Option.filter_eq_some_iff.mp h
    exact List.mem_of_mem_tail (List.mem_of_getLast? hlast)
  · cases h

theorem mem_children_of_part {id x : NodeId} {place : Nat} (h : x ∈ t.part id place) :
    x ∈ t.children id :=
  List.mem_of_getElem? (Option.mem_toList.mp h)

namespace WellFormed

variable (ht : t.WellFormed)

include ht

theorem inside_of_placeOperands {id x : NodeId} {top : NodeId} (hid : id ∈ t.children top)
    (h : x ∈ t.placeOperands id) : t.Inside x top := by
  unfold placeOperands at h
  split at h
  · simp only [Option.mem_toList, Option.map_eq_some_iff] at h
    obtain ⟨⟨a, b⟩, ho, rfl⟩ := h
    exact (ht.inside_of_child (mem_children_of_operands? ho).1).trans (ht.inside_of_child hid)
  · cases h
  · rw [List.mem_singleton.mp h]
    exact ht.inside_of_child hid

/-- The operands of a node lie inside it. -/
theorem inside_of_operandsOf {usage : Usage} {id x : NodeId} (h : x ∈ t.operandsOf usage id) :
    t.Inside x id := by
  unfold operandsOf at h
  split at h
  · split at h
    next place stored ho =>
      have hmem := mem_children_of_operands? ho
      rcases List.mem_append.mp h with h | h
      · exact ht.inside_of_placeOperands hmem.1 h
      · rw [List.mem_singleton.mp h]
        exact ht.inside_of_child hmem.2
    next => cases h
  · simp only [Option.mem_toList, Option.map_eq_some_iff] at h
    obtain ⟨⟨a, b⟩, ho, rfl⟩ := h
    exact ht.inside_of_child (mem_children_of_operands? ho).1
  · rcases List.mem_append.mp h with h | h
    · exact ht.inside_of_child (mem_children_of_arguments h)
    · exact ht.inside_of_child (mem_children_of_trailingLambda? (Option.mem_toList.mp h))
  · exact ht.inside_of_child (mem_children_of_part h)
  · exact ht.inside_of_child (mem_children_of_part h)
  · cases h

end WellFormed

end Tree

/-! ## Runs of nodes and of their code -/

/-- The ways to end at the normal exit. -/
theorem Outcome.exists_exit_iff {P : Outcome → Prop} :
    (∃ o, P o ∧ o.exit? = some exitId) ↔ P .completes ∨ P (.leaves .returns) := by
  constructor
  · rintro ⟨o, ho, he⟩
    rcases o with _ | _ | _ | _ | _
    · exact .inl ho
    · exact .inr ho
    all_goals cases he
  · rintro (h | h)
    · exact ⟨_, h, rfl⟩
    · exact ⟨_, h, rfl⟩

/-- The way to end at the other exit. -/
theorem Outcome.exists_failure_iff {P : Outcome → Prop} :
    (∃ o, P o ∧ o.exit? = some failureId) ↔ P (.leaves .throws) := by
  constructor
  · rintro ⟨o, ho, he⟩
    rcases o with _ | _ | _ | _ | _
    · cases he
    · cases he
    · exact ho
    all_goals cases he
  · exact fun h => ⟨_, h, rfl⟩

namespace Source

/-- How a body is run: a block as a statement, anything else for its value. -/
def bodyUsage (s : Source) (body : NodeId) : Usage :=
  if s.tree.kind body = .block then .statement else .expression

/-- Whether so many levels reach down to everything inside a node. -/
def Reached (s : Source) (n : Nat) (id : NodeId) : Prop :=
  id < s.tree.size ∧ s.tree.size < n + s.tree.depth id

/-- Runs of nodes one after the other are runs of their code. -/
theorem runs_all_of_sequence {t : Tree} {code : NodeId → Code} {u : Usage} {ids : List NodeId}
    (h : ∀ x ∈ ids, ∀ w o, (code x).Runs w o → t.Runs (.one u x) w o) {w : List NodeId}
    {o : Outcome} (hr : (Code.sequence (ids.map code)).Runs w o) : t.Runs (.all u ids) w o := by
  induction ids generalizing w o with
  | nil =>
      obtain ⟨rfl, rfl⟩ := Code.runs_skip_iff.mp hr
      exact .nil
  | cons x ids ih =>
      have hrest (w o) := ih (fun y hy => h y (List.mem_cons_of_mem _ hy)) (w := w) (o := o)
      cases hr with
      | seq h₁ h₂ => exact .cons (h x List.mem_cons_self _ _ h₁) (hrest _ _ h₂)
      | seqLeaves h₁ => exact .cut (h x List.mem_cons_self _ _ h₁)

/-- A run of the outline of a node is a run of the node. -/
theorem runs_of_outline {t : Tree} (code : Usage → NodeId → Code) {u : Usage} {id : NodeId}
    (ho : ∀ x ∈ t.operandsOf u id, ∀ w o,
      (code .expression x).Runs w o → t.Runs (.one .expression x) w o)
    (hc : ∀ u, ∀ x ∈ t.children id, ∀ w o, (code u x).Runs w o → t.Runs (.one u x) w o)
    {w : List NodeId} {o : Outcome} (hr : (outline t code u id).Runs w o) :
    t.Runs (.one u id) w o := by
  have hpart (u : Usage) (place : Nat) {w : List NodeId} {o : Outcome}
      (h : (Code.sequence ((t.part id place).map (code u))).Runs w o) :
      t.Runs (.all u (t.part id place)) w o :=
    runs_all_of_sequence (fun x hx => hc u x (Tree.mem_children_of_part hx)) h
  unfold outline at hr
  cases hf : t.form u id with
  | evaluation =>
      simp only [hf] at hr
      have h := runs_all_of_sequence ho hr
      cases o with
      | completes => exact .evaluates hf h
      | leaves way => exact .operandLeaves h
  | store =>
      simp only [hf] at hr
      cases hr with
      | seq h₁ h₂ =>
          obtain ⟨rfl, rfl⟩ := Code.runs_step_iff.mp h₂
          exact .stores hf (runs_all_of_sequence ho h₁)
      | seqLeaves h₁ => exact .operandLeaves (runs_all_of_sequence ho h₁)
  | leave way =>
      simp only [hf] at hr
      cases hr with
      | seq h₁ h₂ =>
          obtain ⟨rfl, rfl⟩ := Code.runs_leave_iff.mp h₂
          rw [List.append_nil]
          exact .leaves hf (runs_all_of_sequence ho h₁)
      | seqLeaves h₁ => exact .operandLeaves (runs_all_of_sequence ho h₁)
  | choice =>
      simp only [hf] at hr
      cases hr with
      | seq h₁ h₂ =>
          cases h₂ with
          | yes h₂ => exact .chooses hf (.inl rfl) (hpart _ _ h₁) (hpart _ _ h₂)
          | no h₂ => exact .chooses hf (.inr rfl) (hpart _ _ h₁) (hpart _ _ h₂)
      | seqLeaves h₁ => exact .testLeaves (.inl hf) (hpart _ _ h₁)
  | repetition =>
      simp only [hf] at hr
      generalize hl : Code.loop id _ _ = l at hr
      induction hr with
      | stops h => cases hl; exact .stops hf (hpart _ _ h)
      | testLeaves h => cases hl; exact .testLeaves (.inr hf) (hpart _ _ h)
      | again h₁ h₂ hrep _ _ _ ih =>
          cases hl
          exact .again hf (hpart _ _ h₁) (hpart _ _ h₂) hrep (ih rfl)
      | exits h₁ h₂ hrep => cases hl; exact .exits hf (hpart _ _ h₁) (hpart _ _ h₂) hrep
      | _ => cases hl
  | listing =>
      simp only [hf] at hr
      exact .lists hf (runs_all_of_sequence
        (fun x hx => hc _ x (Tree.mem_children_of_significant hx)) hr)

section

variable {s : Source} (ht : s.tree.WellFormed)

include ht

theorem Reached.pos {n : Nat} {id : NodeId} (h : s.Reached n id) : ∃ m, n = m + 1 := by
  have := ht.depth_le_size h.1
  exact ⟨n - 1, by have := h.2; omega⟩

theorem Reached.inside {n : Nat} {id x : NodeId} (h : s.Reached (n + 1) id)
    (hx : s.tree.Inside x id) : s.Reached n x := by
  have hdepth := ht.depth_lt_of_inside hx
  obtain ⟨p, hp, -⟩ := Relation.TransGen.head'_iff.mp hx
  exact ⟨Tree.lt_size_of_parent hp, by have := h.2; omega⟩

theorem Reached.operand {n : Nat} {u : Usage} {id : NodeId} (h : s.Reached (n + 1) id) :
    ∀ x ∈ s.tree.operandsOf u id, s.Reached n x :=
  fun _ hx => h.inside ht (ht.inside_of_operandsOf hx)

theorem Reached.part {n place : Nat} {id : NodeId} (h : s.Reached (n + 1) id) :
    ∀ x ∈ s.tree.part id place, s.Reached n x :=
  fun _ hx => h.inside ht (ht.inside_of_child (Tree.mem_children_of_part hx))

/-- A run of the code of a node is a run of the node. -/
theorem runs_of_codeWithin {n : Nat} {u : Usage} {id : NodeId} (hn : s.Reached n id)
    {w : List NodeId} {o : Outcome} (hr : (s.codeWithin n u id).Runs w o) :
    s.tree.Runs (.one u id) w o := by
  induction n generalizing u id w o with
  | zero =>
      -- no node is so deep that no level is left for it
      obtain ⟨m, hm⟩ := hn.pos ht
      cases hm
  | succ n ih =>
      refine runs_of_outline (s.codeWithin n) ?_ ?_ ((s.alike_outline n u id w o).mp hr)
      · intro x hx w o
        exact ih (hn.inside ht (ht.inside_of_operandsOf hx))
      · intro u x hx w o
        exact ih (hn.inside ht (ht.inside_of_child hx))

/-- Whether what is to be run has code, to so many levels, that can do something. -/
def CodeRuns (s : Source) (n : Nat) : Phrase → List NodeId → Outcome → Prop
  | .one u id, w, o => s.Reached n id → (s.codeWithin n u id).Runs w o
  | .all u ids, w, o =>
    (∀ x ∈ ids, s.Reached n x) → (Code.sequence (ids.map (s.codeWithin n u))).Runs w o

/-- To show what the code of a node can do it is enough to show it of the outline. -/
theorem codeRuns_of_outline {n : Nat} {u : Usage} {id : NodeId} {w : List NodeId} {o : Outcome}
    (h : ∀ m, s.Reached (m + 1) id →
      (outline s.tree (s.codeWithin m) u id).Runs w o) : s.CodeRuns n (.one u id) w o := by
  intro hn
  obtain ⟨m, rfl⟩ := hn.pos ht
  exact (s.alike_outline m u id w o).mpr (h m hn)

/-- A run of a node is a run of its code. -/
theorem codeRuns_of_runs {p : Phrase} {w : List NodeId} {o : Outcome} (h : s.tree.Runs p w o)
    (n : Nat) : s.CodeRuns n p w o := by
  -- The induction is on the run and for all levels at once: what a node runs is one level down,
  -- except for the further rounds of a loop, which are runs of the same node.
  induction h generalizing n with
  | nil => exact fun _ => .skip
  | cons _ _ ih₁ ih₂ =>
      intro hall
      rw [List.forall_mem_cons] at hall
      exact .seq (ih₁ n hall.1) (ih₂ n hall.2)
  | cut _ ih =>
      intro hall
      rw [List.forall_mem_cons] at hall
      exact .seqLeaves (ih n hall.1)
  | @operandLeaves u id v way _ ih =>
      refine codeRuns_of_outline ht fun m hn => ?_
      have hops := ih m (hn.operand ht)
      -- without operands there is nothing that could leave
      have hnone (h : s.tree.operandsOf u id = []) : False := by
        rw [h] at hops
        cases hops
      rw [outline]
      cases hf : s.tree.form u id with
      | evaluation => exact hops
      | store | leave => exact .seqLeaves hops
      | choice => exact (hnone (Tree.operandsOf_eq_nil (.inl hf))).elim
      | repetition => exact (hnone (Tree.operandsOf_eq_nil (.inr (.inl hf)))).elim
      | listing => exact (hnone (Tree.operandsOf_eq_nil (.inr (.inr hf)))).elim
  | @evaluates u id v hf _ ih =>
      refine codeRuns_of_outline ht fun m hn => ?_
      rw [outline, hf]
      exact ih m (hn.operand ht)
  | @stores u id v hf _ ih =>
      refine codeRuns_of_outline ht fun m hn => ?_
      rw [outline, hf]
      exact .seq (ih m (hn.operand ht)) .step
  | @leaves u id v way hf _ ih =>
      refine codeRuns_of_outline ht fun m hn => ?_
      rw [outline, hf, ← List.append_nil v]
      exact .seq (ih m (hn.operand ht)) .leave
  | @lists u id v o hf _ ih =>
      refine codeRuns_of_outline ht fun m hn => ?_
      rw [outline, hf]
      exact ih m fun x hx => hn.inside ht (ht.inside_of_child (Tree.mem_children_of_significant hx))
  | @testLeaves u id v way hf _ ih =>
      refine codeRuns_of_outline ht fun m hn => ?_
      have htest := ih m (hn.part ht)
      rw [outline]
      rcases hf with hf | hf
      · rw [hf]
        exact .seqLeaves htest
      · rw [hf]
        exact .testLeaves htest
  | @chooses u id v w o branch hf hb _ _ ih₁ ih₂ =>
      refine codeRuns_of_outline ht fun m hn => ?_
      rw [outline, hf]
      rcases hb with rfl | rfl
      · exact .seq (ih₁ m (hn.part ht)) (.yes (ih₂ m (hn.part ht)))
      · exact .seq (ih₁ m (hn.part ht)) (.no (ih₂ m (hn.part ht)))
  | @stops u id v hf _ ih =>
      refine codeRuns_of_outline ht fun m hn => ?_
      rw [outline, hf]
      exact .stops (ih m (hn.part ht))
  | @again u id v w r o o' hf _ _ hrep _ ih₁ ih₂ ih₃ =>
      refine codeRuns_of_outline ht fun m hn => ?_
      have hrest := (s.alike_outline m u id _ _).mp (ih₃ (m + 1) hn)
      rw [outline, hf] at hrest ⊢
      exact .again (ih₁ m (hn.part ht)) (ih₂ m (hn.part ht)) hrep hrest
  | @exits u id v w o hf _ _ hrep ih₁ ih₂ =>
      refine codeRuns_of_outline ht fun m hn => ?_
      rw [outline, hf]
      exact .exits (ih₁ m (hn.part ht)) (ih₂ m (hn.part ht)) hrep

end

/-- The runs of a body are those of its code. -/
theorem runs_bodyCode_iff {s : Source} (ht : s.tree.WellFormed) {body : NodeId}
    (hb : body < s.tree.size) (w : List NodeId) (o : Outcome) :
    (s.bodyCode body).Runs w o ↔ s.tree.Runs (.one (s.bodyUsage body) body) w o := by
  have hn : s.Reached s.tree.size body := ⟨hb, by have := s.tree.depth_pos body; omega⟩
  exact ⟨runs_of_codeWithin ht hn, fun h => codeRuns_of_runs ht h _ hn⟩

/-- A body is a node of the tree. -/
theorem lt_size_of_bodyOf? {s : Source} (ht : s.tree.WellFormed) {owner body : NodeId}
    (h : s.bodyOf? owner = some body) : body < s.tree.size := by
  have hchild (h : body ∈ s.tree.children owner) : body < s.tree.size :=
    Tree.lt_size_of_parent (ht.mem_children_iff.mp h)
  unfold bodyOf? at h
  split at h
  · have hfind := (Option.ite_none_right_eq_some.mp h).2
    exact hchild (List.mem_of_find?_eq_some hfind)
  · have hfind := (Option.ite_none_right_eq_some.mp h).2
    exact hchild (Tree.mem_children_of_significant (List.mem_of_find?_eq_some hfind))
  · next hk =>
    cases h
    refine Nat.lt_of_not_le fun hle => ?_
    simp [Tree.kind_of_le hle] at hk
  · cases h

/-- **The flow graph of a body means what its code means.** A function, a lambda or a block has a
flow graph, and along its paths from the entry to the normal exit one reads the assignments of
the runs that complete or return, along those to the other exit those of the runs that throw. -/
theorem flow_runs {s : Source} (ht : s.tree.WellFormed) (hk : s.bodiesKnown = true)
    {owner body : NodeId} (hb : s.bodyOf? owner = some body) :
    ∃ f, s.flow? owner = some f ∧ (f.instr f.entry).op = .enter ∧
      (f.instr exitId).op = .exit false ∧ (f.instr failureId).op = .exit true ∧
      ∀ w,
        ((∃ p, f.Path f.entry p exitId ∧ f.writes p = w) ↔
          s.tree.Runs (.one (s.bodyUsage body) body) w .completes ∨
            s.tree.Runs (.one (s.bodyUsage body) body) w (.leaves .returns)) ∧
        ((∃ p, f.Path f.entry p failureId ∧ f.writes p = w) ↔
          s.tree.Runs (.one (s.bodyUsage body) body) w (.leaves .throws)) := by
  set c := s.bodyCode body with hc
  have hlabels := c.labels_flow owner
  refine ⟨c.flow owner, by simp [flow?, hk, hb, hc],
    (Flow.instr_of_label (by rw [hlabels]; rfl)).1, (Flow.instr_of_label (by rw [hlabels]; rfl)).1,
    (Flow.instr_of_label (by rw [hlabels]; rfl)).1, ?_⟩
  intro w
  have hruns := runs_bodyCode_iff ht (lt_size_of_bodyOf? ht hb) w
  have hstart := c.stored_entry owner
  constructor
  · rw [Code.entry_flow, Flow.exists_path_iff_leads hstart, c.leads_exit_iff owner w (.inl rfl),
      ← hruns, ← hruns]
    exact Outcome.exists_exit_iff
  · rw [Code.entry_flow, Flow.exists_path_iff_leads hstart, c.leads_exit_iff owner w (.inr rfl),
      ← hruns]
    exact Outcome.exists_failure_iff

end Source

end ComponentAudit
