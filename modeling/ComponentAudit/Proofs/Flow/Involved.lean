import ComponentAudit.Proofs.Flow.Meaning
import ComponentAudit.Proofs.Flow.Notes

set_option autoImplicit false

/-! # What running a node involves

Running a node may run other nodes: operands, conditions, branches, statements (`Tree.Needs`), and
what these need in turn (`Tree.Involves`). The code of a node is made of the code of the nodes that
it needs and of a few instructions of its own (`Source.composed_codeWithin`). So what the code of a
body does can be traced to the node it stems from, and the code of every node involved is part of
it.

What a node involves is in the same scope as the node (`Tree.Involves.sameScope`): functions and
lambdas inside a body are not looked into.

Main statements: `Source.involves_of_write`, `Source.loopsHold_codeWithin` and
`Source.exists_read_of_involves`.
-/

namespace ComponentAudit

namespace Tree

theorem kind_of_store {t : Tree} {u : Usage} {id : NodeId} (h : t.form u id = .store) :
    t.kind id = .assign ∧ ∃ place stored, t.operands? id = some (place, stored) := by
  cases hk : t.kind id with
  | assign =>
      cases ho : t.operands? id with
      | none => cases u <;> simp [form, hk, ho] at h
      | some operands => exact ⟨rfl, operands.1, operands.2, rfl⟩
  | _ => cases u <;> simp [form, hk] at h

theorem kind_of_choice {t : Tree} {u : Usage} {id : NodeId} (h : t.form u id = .choice) :
    t.kind id = .ifElse := by
  cases hk : t.kind id with
  | ifElse => rfl
  | assign => cases u <;> simp only [form, hk] at h <;> split at h <;> cases h
  | _ => cases u <;> simp [form, hk] at h

theorem kind_of_repetition {t : Tree} {u : Usage} {id : NodeId} (h : t.form u id = .repetition) :
    u = .statement ∧ t.kind id = .whileLoop := by
  cases hk : t.kind id with
  | whileLoop => cases u <;> simp [form, hk] at h ⊢
  | assign => cases u <;> simp only [form, hk] at h <;> split at h <;> cases h
  | _ => cases u <;> simp [form, hk] at h

theorem kind_of_listing {t : Tree} {u : Usage} {id : NodeId} (h : t.form u id = .listing) :
    u = .statement ∧ t.kind id = .block := by
  cases hk : t.kind id with
  | block => cases u <;> simp [form, hk] at h ⊢
  | assign => cases u <;> simp only [form, hk] at h <;> split at h <;> cases h
  | _ => cases u <;> simp [form, hk] at h

/-- Whether running a node may have to run another one next. -/
inductive Needs (t : Tree) (u : Usage) (id : NodeId) : Usage → NodeId → Prop
  | operand {x : NodeId} : x ∈ t.operandsOf u id → Needs t u id .expression x
  | test {x : NodeId} : t.form u id = .choice ∨ t.form u id = .repetition → x ∈ t.part id 0 →
      Needs t u id .expression x
  | branch {x : NodeId} {place : Nat} : t.form u id = .choice → place = 1 ∨ place = 2 →
      x ∈ t.part id place → Needs t u id .statement x
  | round {x : NodeId} : t.form u id = .repetition → x ∈ t.part id 1 → Needs t u id .statement x
  | item {x : NodeId} : t.form u id = .listing → x ∈ t.significant id → Needs t u id .statement x

/-- Whether running a node may run another one, the node itself included. -/
inductive Involves (t : Tree) (u : Usage) (id : NodeId) : Usage → NodeId → Prop
  | self : Involves t u id u id
  | next {v w : Usage} {x y : NodeId} :
      Involves t u id v x → t.Needs v x w y → Involves t u id w y

/-- The nodes that a node may have to run next, with how they are used. -/
def needsOf (t : Tree) (u : Usage) (id : NodeId) : List (Usage × NodeId) :=
  (t.operandsOf u id).map (.expression, ·) ++
    match t.form u id with
    | .choice =>
      (t.part id 0).map (.expression, ·) ++ (t.part id 1 ++ t.part id 2).map (.statement, ·)
    | .repetition => (t.part id 0).map (.expression, ·) ++ (t.part id 1).map (.statement, ·)
    | .listing => (t.significant id).map (.statement, ·)
    | _ => []

theorem mem_needsOf {t : Tree} {u v : Usage} {id x : NodeId} (h : t.Needs u id v x) :
    (v, x) ∈ t.needsOf u id := by
  unfold needsOf
  cases h with
  | operand hx => simp [hx]
  | test hform hx => rcases hform with hform | hform <;> simp [hform, hx]
  | branch hform hplace hx => rcases hplace with rfl | rfl <;> simp [hform, hx]
  | round hform hx | item hform hx => simp [hform, hx]

/-- What a node involves is in every list that it is in and that is closed. -/
theorem Involves.mem_of_closed {t : Tree} {u v : Usage} {id x : NodeId} (h : t.Involves u id v x)
    {all : List (Usage × NodeId)} (hstart : (u, id) ∈ all)
    (hclosed : ∀ y ∈ all, ∀ z ∈ t.needsOf y.1 y.2, z ∈ all) : (v, x) ∈ all := by
  induction h with
  | self => exact hstart
  | next _ hneeds ih => exact hclosed _ ih _ (mem_needsOf hneeds)

theorem Involves.head {t : Tree} {u v w : Usage} {id x y : NodeId} (h : t.Needs u id v x)
    (hx : t.Involves v x w y) : t.Involves u id w y := by
  induction hx with
  | self => exact .next .self h
  | next _ hn ih => exact .next ih hn

end Tree

/-! ## The code of a node -/

namespace Code

@[simp] theorem mem_parts_skip {d : Code} : d ∈ skip.parts ↔ d = skip := List.mem_singleton

@[simp] theorem mem_parts_step {d : Code} {op : Op} {e : NodeId} :
    d ∈ (step op e).parts ↔ d = step op e := List.mem_singleton

@[simp] theorem mem_parts_leave {d : Code} {e : NodeId} {way : Leave} :
    d ∈ (leave e way).parts ↔ d = leave e way := List.mem_singleton

@[simp] theorem mem_parts_value {d c : Code} {n : NodeId} :
    d ∈ (value n c).parts ↔ d = value n c ∨ d ∈ c.parts := List.mem_cons

@[simp] theorem mem_parts_seq {d a b : Code} :
    d ∈ (seq a b).parts ↔ d = seq a b ∨ d ∈ a.parts ∨ d ∈ b.parts := by
  rw [parts, List.mem_cons, List.mem_append]

@[simp] theorem mem_parts_branch {d a b : Code} {e : NodeId} :
    d ∈ (branch e a b).parts ↔ d = branch e a b ∨ d ∈ a.parts ∨ d ∈ b.parts := by
  rw [parts, List.mem_cons, List.mem_append]

@[simp] theorem mem_parts_loop {d a b : Code} {e : NodeId} :
    d ∈ (loop e a b).parts ↔ d = loop e a b ∨ d ∈ a.parts ∨ d ∈ b.parts := by
  rw [parts, List.mem_cons, List.mem_append]

theorem mem_parts_sequence {c : Code} {cs : List Code} (h : c ∈ cs) : c ∈ (sequence cs).parts := by
  induction cs with
  | nil => cases h
  | cons d cs ih =>
      rcases List.mem_cons.mp h with rfl | h
      · exact mem_parts_seq.mpr (.inr (.inl (mem_parts_self _)))
      · exact mem_parts_seq.mpr (.inr (.inr (ih h)))

/-- Whether code has a last instruction, and that reads nothing through an implicit receiver. -/
def EndsPlainly (c : Code) : Prop :=
  ∃ op e, c.ending? = some (op, e) ∧ ∀ target receiver, op ≠ .read target (some receiver)

end Code

namespace Source

open Code

variable (s : Source)

/-- What is said of the code that a node adds to the code of the nodes it needs. -/
def Own (u : Usage) (id : NodeId) (below : Code → Prop) : Code → Prop
  | .step (.write place _ _) e =>
    e = id ∧ s.tree.form u id = .store ∧ ∃ stored, s.tree.operands? id = some (place, stored)
  | .step (.exit _) _ => False
  | .value n code =>
    n = id ∧ (∀ name, s.tree.kind id = .reference name →
      code = .step (.read (s.access id).1 (s.access id).2) id) ∧
      ((∀ name, s.tree.kind id ≠ .reference name) → code.EndsPlainly) ∨
    s.tree.kind id = .select ∧ ∃ receiver, s.tree.operands? id = some (receiver, n)
  | .leave e way => e = id ∧ s.tree.form u id = .leave way
  | .loop _ test body => s.tree.form u id = .repetition ∧
    ∀ d, d ∈ test.parts ∨ d ∈ body.parts → d = .skip ∨ below d
  | _ => True

/-- Whether code is part of the code of a node that the given one needs. -/
def Below (n : Nat) (u : Usage) (id : NodeId) (d : Code) : Prop :=
  ∃ v x, s.tree.Needs u id v x ∧ d ∈ (s.codeWithin n v x).parts

/-- Whether code is made of the code of the nodes that a node needs and of its own. -/
def Composed (n : Nat) (u : Usage) (id : NodeId) (c : Code) : Prop :=
  ∀ d ∈ c.parts, s.Below n u id d ∨ s.Own u id (s.Below n u id) d

variable {s} {n : Nat} {u : Usage} {id : NodeId}

namespace Composed

theorem needs {v : Usage} {x : NodeId} (h : s.tree.Needs u id v x) :
    s.Composed n u id (s.codeWithin n v x) := fun _ hd => .inl ⟨v, x, h, hd⟩

theorem skip : s.Composed n u id .skip := by
  intro d hd
  rw [mem_parts_skip.mp hd]
  exact .inr trivial

theorem seq {a b : Code} (ha : s.Composed n u id a) (hb : s.Composed n u id b) :
    s.Composed n u id (.seq a b) := by
  intro d hd
  rcases mem_parts_seq.mp hd with rfl | hd | hd
  · exact .inr trivial
  · exact ha d hd
  · exact hb d hd

theorem branch {a b : Code} {e : NodeId} (ha : s.Composed n u id a) (hb : s.Composed n u id b) :
    s.Composed n u id (.branch e a b) := by
  intro d hd
  rcases mem_parts_branch.mp hd with rfl | hd | hd
  · exact .inr trivial
  · exact ha d hd
  · exact hb d hd

theorem step {op : Op} {e : NodeId} (h : s.Own u id (s.Below n u id) (.step op e)) :
    s.Composed n u id (.step op e) := by
  intro d hd
  rw [mem_parts_step.mp hd]
  exact .inr h

theorem leave {e : NodeId} {way : Leave} (h : s.Own u id (s.Below n u id) (.leave e way)) :
    s.Composed n u id (.leave e way) := by
  intro d hd
  rw [mem_parts_leave.mp hd]
  exact .inr h

theorem value {a : Code} {m : NodeId} (h : s.Own u id (s.Below n u id) (.value m a))
    (ha : s.Composed n u id a) : s.Composed n u id (.value m a) := by
  intro d hd
  rcases mem_parts_value.mp hd with rfl | hd
  · exact .inr h
  · exact ha d hd

theorem sequence {cs : List Code} (h : ∀ c ∈ cs, s.Composed n u id c) :
    s.Composed n u id (.sequence cs) := by
  induction cs with
  | nil => exact skip
  | cons c cs ih =>
      rw [List.forall_mem_cons] at h
      exact h.1.seq (ih h.2)

theorem optional {v : Usage} {place : Nat} (h : ∀ x ∈ s.tree.part id place, s.tree.Needs u id v x) :
    s.Composed n u id (Source.optional (s.codeWithin n v) (s.tree.children id)[place]?) := by
  cases hc : (s.tree.children id)[place]? with
  | none => exact skip
  | some x => exact needs (h x (by simp [Tree.part, hc]))

end Composed

theorem codeWithin_reference {name : String} (hk : s.tree.kind id = .reference name) :
    s.codeWithin (n + 1) u id
      = .value id (.step (.read (s.access id).1 (s.access id).2) id) := by
  cases u <;> simp only [codeWithin, hk]

theorem codeWithin_select {receiver selector : NodeId} (hk : s.tree.kind id = .select)
    (ho : s.tree.operands? id = some (receiver, selector)) : s.codeWithin (n + 1) u id
      = .value id (.value selector (.seq (s.codeWithin n .expression receiver)
        (.step (.read (s.selected selector) none) id))) := by
  cases u <;> simp only [codeWithin, hk, ho]

theorem codeWithin_call (hk : s.tree.kind id = .call) : s.codeWithin (n + 1) u id
    = .value id (.seq (.sequence ((s.tree.operandsOf u id).map (s.codeWithin n .expression)))
      (.step .call id)) := by
  cases u <;> simp only [codeWithin, hk, Tree.operandsOf]

theorem composed_assignCode (hk : s.tree.kind id = .assign) :
    s.Composed n u id (s.assignCode (s.codeWithin n .expression) id) := by
  have hform : (s.tree.operands? id).isSome = true → s.tree.form u id = .store := by
    intro h
    cases u <;> simp [Tree.form, hk, h]
  have hops {place stored : NodeId} (ho : s.tree.operands? id = some (place, stored)) :
      s.tree.operandsOf u id = s.tree.placeOperands place ++ [stored] := by
    cases u <;> simp [Tree.operandsOf, hk, ho]
  unfold assignCode
  split
  · exact .step trivial
  · next place stored ho =>
    have hstored : s.Composed n u id (s.codeWithin n .expression stored) :=
      .needs (.operand (by simp [hops ho]))
    have hstore (target : Target) (receiver : Option Receiver) : s.Composed n u id
        (.seq (s.codeWithin n .expression stored) (.step (.write place target receiver) id)) :=
      hstored.seq (.step ⟨rfl, hform (by rw [ho]; rfl), stored, ho⟩)
    have hplace {x : NodeId} (hx : x ∈ s.tree.placeOperands place) :
        s.Composed n u id (s.codeWithin n .expression x) :=
      .needs (.operand (by simp [hops ho, hx]))
    split
    · next hp =>
      split
      · next receiver selector hs =>
        exact (hplace (by simp [Tree.placeOperands, hp, hs])).seq (hstore _ _)
      · exact hstore _ _
    · exact hstore _ _
    · next hsel href =>
      refine (hplace ?_).seq (hstore _ _)
      unfold Tree.placeOperands
      split
      · next h => exact absurd h hsel
      · next h => exact absurd h (href _)
      · exact List.mem_singleton_self _

theorem composed_ifCode (hk : s.tree.kind id = .ifElse) :
    s.Composed n u id (s.ifCode (s.codeWithin n) id) := by
  have hform : s.tree.form u id = .choice := by cases u <;> simp [Tree.form, hk]
  exact (Composed.optional fun x hx => .test (.inl hform) hx).seq
    ((Composed.optional fun x hx => .branch hform (.inl rfl) hx).branch
      (Composed.optional fun x hx => .branch hform (.inr rfl) hx))

theorem composed_leaveCode {way : Leave} (hform : s.tree.form u id = .leave way)
    (hops : s.tree.operandsOf u id = s.tree.part id 0) :
    s.Composed n u id (s.leaveCode (s.codeWithin n .expression) id way) :=
  (Composed.optional fun x hx => .operand (by rwa [hops])).seq (.leave ⟨rfl, hform⟩)

theorem composed_loop (hform : s.tree.form u id = .repetition) :
    s.Composed n u id (.loop id
      (optional (s.codeWithin n .expression) (s.tree.children id)[0]?)
      (optional (s.codeWithin n .statement) (s.tree.children id)[1]?)) := by
  have htest {x : NodeId} (h : (s.tree.children id)[0]? = some x) :
      s.tree.Needs u id .expression x := .test (.inr hform) (by simp [Tree.part, h])
  have hround {x : NodeId} (h : (s.tree.children id)[1]? = some x) :
      s.tree.Needs u id .statement x := .round hform (by simp [Tree.part, h])
  have hinside (d : Code)
      (hd : d ∈ (optional (s.codeWithin n .expression) (s.tree.children id)[0]?).parts ∨
        d ∈ (optional (s.codeWithin n .statement) (s.tree.children id)[1]?).parts) :
      d = .skip ∨ s.Below n u id d := by
    rcases hd with hd | hd
    · cases hc : (s.tree.children id)[0]? with
      | none => exact .inl (by simpa [hc, optional] using hd)
      | some x => exact .inr ⟨_, x, htest hc, by simpa [hc, optional] using hd⟩
    · cases hc : (s.tree.children id)[1]? with
      | none => exact .inl (by simpa [hc, optional] using hd)
      | some x => exact .inr ⟨_, x, hround hc, by simpa [hc, optional] using hd⟩
  intro d hd
  rcases mem_parts_loop.mp hd with rfl | hd
  · exact .inr ⟨hform, hinside⟩
  · rcases hinside d hd with rfl | hd
    · exact .inr trivial
    · exact .inl hd

/-- **The code of a node is made of the code of the nodes it needs** and of its own. -/
theorem composed_codeWithin (s : Source) (n : Nat) (u : Usage) (id : NodeId) :
    s.Composed n u id (s.codeWithin (n + 1) u id) := by
  have hvalue {c : Code} {op : Op} {e : NodeId} (hk : ∀ name, s.tree.kind id ≠ .reference name)
      (hend : c.ending? = some (op, e)) (hop : ∀ target receiver, op ≠ .read target (some receiver))
      (hc : s.Composed n u id c) : s.Composed n u id (.value id c) :=
    .value (.inl ⟨rfl, fun name h => absurd h (hk name), fun _ => ⟨op, e, hend, hop⟩⟩) hc
  have hstep {op : Op} (h : (∀ place target receiver, op ≠ .write place target receiver) ∧
      ∀ failed, op ≠ .exit failed) : s.Composed n u id (.step op id) := by
    refine .step ?_
    unfold Own
    split <;> simp_all
  have heval (hk : ∀ name, s.tree.kind id ≠ .reference name) :
      s.Composed n u id (.value id (.step .eval id)) := hvalue hk rfl (by simp) (hstep (by simp))
  cases hk : s.tree.kind id with
  | assign =>
      have h := composed_assignCode (n := n) (u := u) hk
      cases u <;> simp only [codeWithin, hk]
      · exact h
      · exact hvalue (by simp [hk]) rfl (by simp) (h.seq (hstep (by simp)))
  | ifElse =>
      have h := composed_ifCode (n := n) (u := u) hk
      cases u <;> simp only [codeWithin, hk]
      · exact h
      · exact hvalue (by simp [hk]) rfl (by simp) h
  | select =>
      cases ho : s.tree.operands? id with
      | none =>
          have hcode : s.codeWithin (n + 1) u id = .value id (.step .eval id) := by
            cases u <;> simp only [codeWithin, hk, ho]
          rw [hcode]
          exact heval (by simp [hk])
      | some operands =>
          obtain ⟨receiver, selector⟩ := operands
          have hneeds : s.tree.Needs u id .expression receiver :=
            .operand (by cases u <;> simp [Tree.operandsOf, hk, ho])
          rw [codeWithin_select hk ho]
          exact hvalue (by simp [hk]) rfl (by simp) (.value (.inr ⟨hk, receiver, ho⟩)
            ((Composed.needs hneeds).seq (hstep (by simp))))
  | call =>
      rw [codeWithin_call hk]
      refine hvalue (by simp [hk]) rfl (by simp) (.seq (.sequence fun c hc => ?_) (hstep (by simp)))
      obtain ⟨x, hx, rfl⟩ := List.mem_map.mp hc
      exact .needs (.operand hx)
  | reference name =>
      rw [codeWithin_reference hk]
      exact .value (.inl ⟨rfl, fun _ _ => rfl, fun h => absurd hk (h name)⟩) (hstep (by simp))
  | whileLoop =>
      cases u <;> simp only [codeWithin, hk]
      · exact composed_loop (by simp [Tree.form, hk])
      · exact heval (by simp [hk])
  | block =>
      cases u <;> simp only [codeWithin, hk]
      · refine .sequence fun c hc => ?_
        obtain ⟨x, hx, rfl⟩ := List.mem_map.mp hc
        exact .needs (.item (by simp [Tree.form, hk]) hx)
      · exact heval (by simp [hk])
  | returns | throws =>
      cases u <;> simp only [codeWithin, hk]
      · exact composed_leaveCode (by simp [Tree.form, hk]) (by simp [Tree.operandsOf, hk])
      · exact heval (by simp [hk])
  | breaks | continues =>
      cases u <;> simp only [codeWithin, hk]
      · exact .leave ⟨rfl, by simp [Tree.form, hk]⟩
      · exact heval (by simp [hk])
  | blank text | comment text =>
      cases u <;> simp only [codeWithin, hk]
      · exact .skip
      · exact heval (by simp [hk])
  | function decl | classDecl name | property decl =>
      cases u <;> simp only [codeWithin, hk]
      · exact hstep (by simp)
      · exact heval (by simp [hk])
  | _ =>
      cases u <;> simp only [codeWithin, hk] <;> exact heval (by simp [hk])

/-- An assignment has the code of its operands. -/
theorem mem_parts_assignCode {x : NodeId} (hk : s.tree.kind id = .assign)
    (hx : x ∈ s.tree.operandsOf u id) :
    s.codeWithin n .expression x ∈ (s.assignCode (s.codeWithin n .expression) id).parts := by
  cases ho : s.tree.operands? id with
  | none => cases u <;> simp [Tree.operandsOf, hk, ho] at hx
  | some operands =>
      obtain ⟨place, stored⟩ := operands
      have hops : x ∈ s.tree.placeOperands place ∨ x = stored := by
        cases u <;> simpa [Tree.operandsOf, hk, ho] using hx
      unfold assignCode
      simp only [ho]
      rcases hops with hx | rfl
      · cases hp : s.tree.kind place with
        | select =>
            simp only [Tree.placeOperands, hp] at hx
            obtain ⟨⟨receiver, selector⟩, hs, rfl⟩ :=
              Option.map_eq_some_iff.mp (Option.mem_toList.mp hx)
            simp [hs]
        | reference name => simp [Tree.placeOperands, hp] at hx
        | _ =>
            simp only [Tree.placeOperands, hp, List.mem_singleton] at hx
            simp [hx]
      · split
        · split <;> simp
        · simp
        · simp

theorem mem_parts_optional (code : NodeId → Code) {x : NodeId} {place : Nat}
    (hx : x ∈ s.tree.part id place) :
    code x ∈ (optional code (s.tree.children id)[place]?).parts := by
  rw [Option.mem_toList.mp hx]
  exact mem_parts_self _

/-- The code of the nodes that a node needs is part of its code. -/
theorem codeWithin_mem_parts {v : Usage} {x : NodeId} (h : s.tree.Needs u id v x) (n : Nat) :
    s.codeWithin n v x ∈ (s.codeWithin (n + 1) u id).parts := by
  cases h with
  | operand hx =>
      cases hk : s.tree.kind id with
      | assign =>
          have h := mem_parts_assignCode (n := n) hk hx
          cases u <;> simp [codeWithin, hk, h]
      | select =>
          obtain ⟨⟨receiver, selector⟩, ho, rfl⟩ : ∃ o, s.tree.operands? id = some o ∧ o.1 = x := by
            cases u <;> simpa [Tree.operandsOf, hk] using hx
          simp [codeWithin_select hk ho]
      | call =>
          have h := mem_parts_sequence (List.mem_map_of_mem (f := s.codeWithin n .expression) hx)
          simp [codeWithin_call hk, h]
      | returns | throws =>
          cases u <;> simp only [Tree.operandsOf, hk] at hx
          · have h := mem_parts_optional (s.codeWithin n .expression) hx
            simp [codeWithin, hk, leaveCode, h]
          · cases hx
      | _ => cases u <;> simp [Tree.operandsOf, hk] at hx
  | test hform hx =>
      have h := mem_parts_optional (s.codeWithin n .expression) hx
      rcases hform with hform | hform
      · have hk := Tree.kind_of_choice hform
        cases u <;> simp [codeWithin, hk, ifCode, h]
      · obtain ⟨rfl, hk⟩ := Tree.kind_of_repetition hform
        simp [codeWithin, hk, h]
  | branch hform hplace hx =>
      have h := mem_parts_optional (s.codeWithin n .statement) hx
      have hk := Tree.kind_of_choice hform
      rcases hplace with rfl | rfl
      · cases u <;> simp [codeWithin, hk, ifCode, h]
      · cases u <;> simp [codeWithin, hk, ifCode, h]
  | round hform hx =>
      have h := mem_parts_optional (s.codeWithin n .statement) hx
      obtain ⟨rfl, hk⟩ := Tree.kind_of_repetition hform
      simp [codeWithin, hk, h]
  | item hform hx =>
      have h := mem_parts_sequence (List.mem_map_of_mem (f := s.codeWithin n .statement) hx)
      obtain ⟨rfl, hk⟩ := Tree.kind_of_listing hform
      simpa only [codeWithin, hk] using h

/-! ## From code back to nodes -/

/-- A store in the code of a node is one that the node involves. -/
theorem involves_of_write {place e : NodeId} {target : Target} {receiver : Option Receiver}
    (h : .step (.write place target receiver) e ∈ (s.codeWithin n u id).parts) :
    ∃ v, s.tree.Involves u id v e ∧ s.tree.form v e = .store ∧
      ∃ stored, s.tree.operands? e = some (place, stored) := by
  induction n generalizing u id with
  | zero => cases mem_parts_skip.mp h
  | succ n ih =>
      rcases composed_codeWithin s n u id _ h with ⟨v, x, hneeds, h⟩ | ⟨rfl, hform, hops⟩
      · obtain ⟨w, hw, hstore⟩ := ih h
        exact ⟨w, hw.head hneeds, hstore⟩
      · exact ⟨u, .self, hform, hops⟩

/-- The exits of a body are not in the code of a node. -/
theorem not_exit_codeWithin {failed : Bool} {e : NodeId} :
    .step (.exit failed) e ∉ (s.codeWithin n u id).parts := by
  induction n generalizing u id with
  | zero => simp [codeWithin]
  | succ n ih =>
      intro h
      rcases composed_codeWithin s n u id _ h with ⟨v, x, -, h⟩ | h
      · exact ih h
      · exact h

/-- Where the code of a node leaves, the node involves a statement that does. -/
theorem involves_of_leave {e : NodeId} {way : Leave}
    (h : .leave e way ∈ (s.codeWithin n u id).parts) :
    ∃ v, s.tree.Involves u id v e ∧ s.tree.form v e = .leave way := by
  induction n generalizing u id with
  | zero => cases mem_parts_skip.mp h
  | succ n ih =>
      rcases composed_codeWithin s n u id _ h with ⟨v, x, hneeds, h⟩ | ⟨rfl, hform⟩
      · obtain ⟨w, hw, hleave⟩ := ih h
        exact ⟨w, hw.head hneeds, hleave⟩
      · exact ⟨u, .self, hform⟩

/-- A loop in the code of a node is one that the node involves, and where its code leaves, the loop
involves a statement that does. -/
theorem involves_of_loop {e : NodeId} {a b : Code}
    (h : .loop e a b ∈ (s.codeWithin n u id).parts) :
    ∃ v x, s.tree.Involves u id v x ∧ s.tree.form v x = .repetition ∧
      ∀ e' way, .leave e' way ∈ a.parts ∨ .leave e' way ∈ b.parts →
        ∃ w, s.tree.Involves v x w e' ∧ s.tree.form w e' = .leave way := by
  induction n generalizing u id with
  | zero => cases mem_parts_skip.mp h
  | succ n ih =>
      rcases composed_codeWithin s n u id _ h with ⟨v, x, hneeds, h⟩ | ⟨hform, hinside⟩
      · obtain ⟨w, y, hy, hloop⟩ := ih h
        exact ⟨w, y, hy.head hneeds, hloop⟩
      · refine ⟨u, id, .self, hform, fun e' way hl => ?_⟩
        obtain ⟨v, x, hneeds, hl⟩ := (hinside _ hl).resolve_left (by simp)
        obtain ⟨w, hw, hleave⟩ := involves_of_leave hl
        exact ⟨w, hw.head hneeds, hleave⟩

/-- **Without a return inside a loop that a node involves, none is in a loop of its code.** -/
theorem loopsHold_codeWithin (h : ∀ v x, s.tree.Involves u id v x →
    s.tree.form v x = .repetition → ∀ w y, s.tree.Involves v x w y →
      s.tree.form w y ≠ .leave .returns) : (s.codeWithin n u id).LoopsHold := by
  intro e a b hloop
  obtain ⟨v, x, hx, hform, hleaves⟩ := involves_of_loop hloop
  have hno {c : Code} (hc : ∀ e', .leave e' .returns ∈ c.parts →
      .leave e' .returns ∈ a.parts ∨ .leave e' .returns ∈ b.parts) : c.returns = false := by
    refine Bool.eq_false_iff.mpr fun hr => ?_
    obtain ⟨e', he'⟩ := exists_of_returns hr
    obtain ⟨w, hw, hleave⟩ := hleaves e' .returns (hc e' he')
    exact h v x hx hform w e' hw hleave
  exact ⟨hno fun _ => .inl, hno fun _ => .inr⟩

/-- The code for the value of a name is the read of the name, unless the name is the selector of
`receiver.name`. -/
theorem read_of_value {m : NodeId} {code : Code} {name : String}
    (h : .value m code ∈ (s.codeWithin n u id).parts) (hk : s.tree.kind m = .reference name) :
    code = .step (.read (s.access m).1 (s.access m).2) m ∨
      ∃ x receiver, s.tree.kind x = .select ∧ s.tree.operands? x = some (receiver, m) := by
  induction n generalizing u id with
  | zero => cases mem_parts_skip.mp h
  | succ n ih =>
      rcases composed_codeWithin s n u id _ h with ⟨v, x, -, h⟩ | ⟨rfl, hread, -⟩ | ⟨hsel, hops⟩
      · exact ih h
      · exact .inl (hread name hk)
      · exact .inr ⟨id, _, hsel, hops.choose_spec⟩

/-- The code for the value of anything but a name reads nothing through an implicit
receiver last. -/
theorem endsPlainly_of_value {m : NodeId} {code : Code}
    (h : .value m code ∈ (s.codeWithin n u id).parts)
    (hk : ∀ name, s.tree.kind m ≠ .reference name) :
    code.EndsPlainly ∨
      ∃ x receiver, s.tree.kind x = .select ∧ s.tree.operands? x = some (receiver, m) := by
  induction n generalizing u id with
  | zero => cases mem_parts_skip.mp h
  | succ n ih =>
      rcases composed_codeWithin s n u id _ h with ⟨v, x, -, h⟩ | ⟨rfl, -, hend⟩ | ⟨hsel, hops⟩
      · exact ih h
      · exact .inl (hend hk)
      · exact .inr ⟨id, _, hsel, hops.choose_spec⟩

end Source

/-! ## From nodes to code -/

namespace Tree

/-- Whether a node opens a scope of its own for names or receivers. -/
def opensScope (t : Tree) (id : NodeId) : Bool :=
  match t.kind id with
  | .function _ | .lambda | .file _ => true
  | _ => false

/-- Whether a node lies in the scope of another one around it. -/
inductive SameScope (t : Tree) (top : NodeId) : NodeId → Prop
  | refl : SameScope t top top
  | child {p c : NodeId} :
      SameScope t top p → t.opensScope p = false → t.parent c = some p → SameScope t top c

variable {t : Tree}

theorem SameScope.trans {a b c : NodeId} (h : t.SameScope a b) (h' : t.SameScope b c) :
    t.SameScope a c := by
  induction h' with
  | refl => exact h
  | child _ hopen hp ih => exact .child ih hopen hp

namespace WellFormed

variable (ht : t.WellFormed)

include ht

theorem inside_of_needs {u v : Usage} {id x : NodeId} (h : t.Needs u id v x) : t.Inside x id := by
  cases h with
  | operand h => exact ht.inside_of_operandsOf h
  | test _ h | branch _ _ h | round _ h => exact ht.inside_of_child (mem_children_of_part h)
  | item _ h => exact ht.inside_of_child (mem_children_of_significant h)

theorem sameScope_of_child {c p : NodeId} (h : c ∈ t.children p) (hopen : t.opensScope p = false) :
    t.SameScope p c := .child .refl hopen (ht.mem_children_iff.mp h)

theorem sameScope_of_placeOperands {place x : NodeId} (h : x ∈ t.placeOperands place) :
    t.SameScope place x := by
  unfold placeOperands at h
  split at h
  · next hk =>
    obtain ⟨⟨a, b⟩, ho, rfl⟩ := Option.map_eq_some_iff.mp (Option.mem_toList.mp h)
    exact ht.sameScope_of_child (mem_children_of_operands? ho).1 (by simp [opensScope, hk])
  · cases h
  · rw [List.mem_singleton.mp h]
    exact .refl

theorem sameScope_of_operandsOf {u : Usage} {id x : NodeId} (h : x ∈ t.operandsOf u id) :
    t.SameScope id x := by
  have hchild (hopen : t.opensScope id = false) (hx : x ∈ t.children id) : t.SameScope id x :=
    ht.sameScope_of_child hx hopen
  unfold operandsOf at h
  split at h
  · next hk =>
    have hopen : t.opensScope id = false := by simp [opensScope, hk]
    split at h
    next place stored ho =>
      have hmem := mem_children_of_operands? ho
      rcases List.mem_append.mp h with h | h
      · exact (ht.sameScope_of_child hmem.1 hopen).trans (ht.sameScope_of_placeOperands h)
      · exact hchild hopen (List.mem_singleton.mp h ▸ hmem.2)
    next => cases h
  · next hk =>
    obtain ⟨⟨a, b⟩, ho, rfl⟩ := Option.map_eq_some_iff.mp (Option.mem_toList.mp h)
    exact hchild (by simp [opensScope, hk]) (mem_children_of_operands? ho).1
  · next hk =>
    refine hchild (by simp [opensScope, hk]) ?_
    rcases List.mem_append.mp h with h | h
    · exact mem_children_of_arguments h
    · exact mem_children_of_trailingLambda? (Option.mem_toList.mp h)
  · next hk => exact hchild (by simp [opensScope, hk]) (mem_children_of_part h)
  · next hk => exact hchild (by simp [opensScope, hk]) (mem_children_of_part h)
  · cases h

theorem sameScope_of_needs {u v : Usage} {id x : NodeId} (h : t.Needs u id v x) :
    t.SameScope id x := by
  cases h with
  | operand h => exact ht.sameScope_of_operandsOf h
  | test hform h =>
      refine ht.sameScope_of_child (mem_children_of_part h) ?_
      rcases hform with hform | hform
      · simp [opensScope, kind_of_choice hform]
      · simp [opensScope, (kind_of_repetition hform).2]
  | branch hform _ h =>
      exact ht.sameScope_of_child (mem_children_of_part h)
        (by simp [opensScope, kind_of_choice hform])
  | round hform h =>
      exact ht.sameScope_of_child (mem_children_of_part h)
        (by simp [opensScope, (kind_of_repetition hform).2])
  | item hform h =>
      exact ht.sameScope_of_child (mem_children_of_significant h)
        (by simp [opensScope, (kind_of_listing hform).2])

/-- What a node involves is in its scope. -/
theorem sameScope_of_involves {u v : Usage} {id x : NodeId} (h : t.Involves u id v x) :
    t.SameScope id x := by
  induction h with
  | self => exact .refl
  | next _ hneeds ih => exact ih.trans (ht.sameScope_of_needs hneeds)

end WellFormed

end Tree

namespace Source

variable {s : Source} (ht : s.tree.WellFormed)

include ht

/-- Names mean the same in one scope. -/
theorem lexical?_of_sameScope {top x : NodeId} (h : s.tree.SameScope top x) (name : String) :
    s.lexical? x name = s.lexical? top name := by
  induction h with
  | refl => rfl
  | @child p c _ hopen hp ih =>
      rw [← ih, lexical?, ht.ancestors_of_parent hp, Tree.lineage, lexicalFrom?]
      unfold Tree.opensScope at hopen
      split at hopen
      · cases hopen
      · cases hopen
      · cases hopen
      · next hf hl hfile =>
        split
        · next h => exact absurd h (hf _)
        · next h => exact absurd h (hfile _)
        · rfl

/-- The implicit receivers are the same in one scope. -/
theorem receivers_of_sameScope {top x : NodeId} (h : s.tree.SameScope top x) :
    s.receivers x = s.receivers top := by
  induction h with
  | refl => rfl
  | @child p c _ hopen hp ih =>
      have hnone : s.receiverAt? p = none := by
        unfold Tree.opensScope at hopen
        unfold receiverAt?
        split at hopen <;> simp_all
      rw [← ih, receivers, ht.ancestors_of_parent hp, Tree.lineage, List.filterMap_cons, hnone]
      rfl

/-- The code of what a node involves is part of its code. -/
theorem codeWithin_mem_of_involves {n : Nat} {u v : Usage} {id x : NodeId}
    (h : s.tree.Involves u id v x) (hn : s.Reached n id) :
    ∃ m, s.Reached m x ∧ s.codeWithin m v x ∈ (s.codeWithin n u id).parts := by
  induction h with
  | self => exact ⟨n, hn, Code.mem_parts_self _⟩
  | @next v w x y _ hneeds ih =>
      obtain ⟨m, hm, hmem⟩ := ih
      obtain ⟨k, rfl⟩ := hm.pos ht
      exact ⟨k, hm.inside ht (ht.inside_of_needs hneeds),
        Code.mem_parts_trans hmem (codeWithin_mem_parts hneeds k)⟩

/-- **A name that a node involves is read in its code.** -/
theorem exists_read_of_involves {n : Nat} {u v : Usage} {id x : NodeId} {name : String}
    (h : s.tree.Involves u id v x) (hn : s.Reached n id) (hk : s.tree.kind x = .reference name) :
    .value x (.step (.read (s.access x).1 (s.access x).2) x) ∈ (s.codeWithin n u id).parts := by
  obtain ⟨m, hm, hmem⟩ := codeWithin_mem_of_involves ht h hn
  obtain ⟨k, rfl⟩ := hm.pos ht
  rwa [codeWithin_reference hk] at hmem

end Source

end ComponentAudit
