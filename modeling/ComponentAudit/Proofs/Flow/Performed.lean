import ComponentAudit.Tree.Draft
import ComponentAudit.Proofs.Flow.Involved
import ComponentAudit.Proofs.Flow.Passing

set_option autoImplicit false

/-! # What a body is written to do

`Tree.Runs` follows the code of a body, and the code leaves things out. Behind the point of a
selection nothing is run, and a loop, a block or a jump that stands where a value is wanted is one
evaluation. Here a node does the same wherever it stands (`Tree.Performs`): the arguments of
`a.g(..)` are run after `a`, `x = throw e` throws, and so does `fun f() = throw e`. Lambdas and
local declarations are the only nodes that are not looked into. `break` and `continue` act on the
innermost loop whose body they stand in, so in the condition of a loop they act on the loop around.

Main statement: `Source.flow_performs`. If what the code of a body passes over
(`Tree.passedOver`) stores nothing and always completes, then along the paths of the flow graph
one reads exactly the assignments that the body is written to perform. `Source.flow_passes_over`
shows that something has to be asked for.
-/

namespace ComponentAudit

/-- A node, or several nodes one after the other. -/
inductive Portion where
  | one (id : NodeId)
  | all (ids : List NodeId)

/-- What is run, no matter how it is used. -/
def Phrase.portion : Phrase → Portion
  | .one _ id => .one id
  | .all _ ids => .all ids

namespace Tree

/-- The two sides of a selection. -/
def selected (t : Tree) (id : NodeId) : List NodeId :=
  match t.operands? id with
  | some (receiver, selector) => [receiver, selector]
  | none => []

/-- What is to be evaluated of a place before something is stored there: both sides of a member,
and nothing of a name. -/
def placeParts (t : Tree) (place : NodeId) : List NodeId :=
  match t.kind place with
  | .select => t.selected place
  | .reference _ => []
  | _ => [place]

/-- What is to be evaluated before a node does what it does, wherever the node stands. -/
def evaluated (t : Tree) (id : NodeId) : List NodeId :=
  match t.kind id with
  | .assign =>
    match t.operands? id with
    | some (place, value) => t.placeParts place ++ [value]
    | none => []
  | .select => t.selected id
  | .call => t.arguments id ++ (t.trailingLambda? id).toList
  | .returns | .throws => t.part id 0
  | _ => []

/-- The assignments that are to be performed, in order, and the way to end then. A node does
wherever it stands what it does as a statement. -/
inductive Performs (t : Tree) : Portion → List NodeId → Outcome → Prop
  | nil : Performs t (.all []) [] .completes
  | cons {id : NodeId} {ids v w : List NodeId} {o : Outcome} :
      Performs t (.one id) v .completes → Performs t (.all ids) w o →
      Performs t (.all (id :: ids)) (v ++ w) o
  | cut {id : NodeId} {ids v : List NodeId} {way : Leave} :
      Performs t (.one id) v (.leaves way) → Performs t (.all (id :: ids)) v (.leaves way)
  | operandLeaves {id : NodeId} {v : List NodeId} {way : Leave} :
      Performs t (.all (t.evaluated id)) v (.leaves way) → Performs t (.one id) v (.leaves way)
  | evaluates {id : NodeId} {v : List NodeId} :
      t.form .statement id = .evaluation → Performs t (.all (t.evaluated id)) v .completes →
      Performs t (.one id) v .completes
  | stores {id : NodeId} {v : List NodeId} :
      t.form .statement id = .store → Performs t (.all (t.evaluated id)) v .completes →
      Performs t (.one id) (v ++ [id]) .completes
  | leaves {id : NodeId} {v : List NodeId} {way : Leave} :
      t.form .statement id = .leave way → Performs t (.all (t.evaluated id)) v .completes →
      Performs t (.one id) v (.leaves way)
  | lists {id : NodeId} {v : List NodeId} {o : Outcome} :
      t.form .statement id = .listing → Performs t (.all (t.significant id)) v o →
      Performs t (.one id) v o
  | testLeaves {id : NodeId} {v : List NodeId} {way : Leave} :
      t.form .statement id = .choice ∨ t.form .statement id = .repetition →
      Performs t (.all (t.part id 0)) v (.leaves way) → Performs t (.one id) v (.leaves way)
  | chooses {id : NodeId} {v w : List NodeId} {o : Outcome} {branch : Nat} :
      t.form .statement id = .choice → branch = 1 ∨ branch = 2 →
      Performs t (.all (t.part id 0)) v .completes → Performs t (.all (t.part id branch)) w o →
      Performs t (.one id) (v ++ w) o
  | stops {id : NodeId} {v : List NodeId} :
      t.form .statement id = .repetition → Performs t (.all (t.part id 0)) v .completes →
      Performs t (.one id) v .completes
  | again {id : NodeId} {v w r : List NodeId} {o o' : Outcome} :
      t.form .statement id = .repetition → Performs t (.all (t.part id 0)) v .completes →
      Performs t (.all (t.part id 1)) w o → o.repeats = true → Performs t (.one id) r o' →
      Performs t (.one id) (v ++ w ++ r) o'
  | exits {id : NodeId} {v w : List NodeId} {o : Outcome} :
      t.form .statement id = .repetition → Performs t (.all (t.part id 0)) v .completes →
      Performs t (.all (t.part id 1)) w o → o.repeats = false →
      Performs t (.one id) (v ++ w) o.outside

/-- Whether a node stores nothing and always completes. -/
def Silent (t : Tree) (id : NodeId) : Prop :=
  ∀ w o, t.Performs (.one id) w o ↔ w = [] ∧ o = .completes

/-- What the code of a node passes over: what stands behind the point of a selection, and a loop,
a block or a jump where a value is wanted. -/
def passedOver (t : Tree) (usage : Usage) (id : NodeId) : List NodeId :=
  match usage, t.kind id with
  | _, .select => (t.selected id).drop 1
  | _, .assign =>
    match t.operands? id with
    | some (place, _) => (t.placeParts place).drop 1
    | none => []
  | .expression, .whileLoop | .expression, .block | .expression, .returns | .expression, .throws
  | .expression, .breaks | .expression, .continues => [id]
  | _, _ => []

/-- Whether nothing is lost by what is passed over in running a node. -/
def Spared (t : Tree) (usage : Usage) (id : NodeId) : Prop :=
  ∀ u x, t.Involves usage id u x → ∀ y ∈ t.passedOver u x, t.Silent y

/-! ## What is passed over -/

variable {t : Tree} {u : Usage} {id : NodeId}

theorem Silent.performs (h : t.Silent id) : t.Performs (.one id) [] .completes :=
  (h _ _).mpr ⟨rfl, rfl⟩

/-- A node that does more than evaluate does so as a statement too. -/
theorem form_statement {form : Form} (h : t.form u id = form) (hne : form ≠ .evaluation) :
    t.form .statement id = form := by
  cases u with
  | statement => exact h
  | expression => cases hk : t.kind id <;> simp_all [Tree.form]

/-- A node that does less where it stands than as a statement is evaluated and passed over. -/
theorem passedOver_of_form_ne (h : t.form u id ≠ t.form .statement id) :
    t.form u id = .evaluation ∧ t.operandsOf u id = [] ∧ id ∈ t.passedOver u id := by
  refine ⟨by_contra fun hne => h (form_statement rfl hne).symm, ?_⟩
  cases u with
  | statement => exact absurd rfl h
  | expression => cases hk : t.kind id <;> simp_all [form, operandsOf, passedOver]

/-- A list, and what is left of it when silent nodes are taken out. -/
inductive Trimmed (t : Tree) : List NodeId → List NodeId → Prop
  | nil : Trimmed t [] []
  | keep {x : NodeId} {xs ys : List NodeId} : Trimmed t xs ys → Trimmed t (x :: xs) (x :: ys)
  | drop {x : NodeId} {xs ys : List NodeId} : t.Silent x → Trimmed t xs ys → Trimmed t (x :: xs) ys

namespace Trimmed

theorem refl (xs : List NodeId) : t.Trimmed xs xs := by
  induction xs with
  | nil => exact .nil
  | cons x xs ih => exact .keep ih

theorem append {xs ys xs' ys' : List NodeId} (h : t.Trimmed xs ys) (h' : t.Trimmed xs' ys') :
    t.Trimmed (xs ++ xs') (ys ++ ys') := by
  induction h with
  | nil => exact h'
  | keep _ ih => exact .keep ih
  | drop hx _ ih => exact .drop hx ih

/-- Silent nodes can be added to what is performed. -/
theorem performs {xs ys : List NodeId} (h : t.Trimmed xs ys) {w : List NodeId} {o : Outcome}
    (hy : t.Performs (.all ys) w o) : t.Performs (.all xs) w o := by
  induction h generalizing w o with
  | nil => exact hy
  | keep _ ih =>
      cases hy with
      | cons h₁ h₂ => exact .cons h₁ (ih h₂)
      | cut h₁ => exact .cut h₁
  | drop hx _ ih => exact .cons hx.performs (ih hy)

end Trimmed

theorem trimmed_selected (h : ∀ y ∈ (t.selected id).drop 1, t.Silent y) :
    t.Trimmed (t.selected id) ((t.operands? id).map (·.1)).toList := by
  unfold selected at h ⊢
  cases ho : t.operands? id with
  | none => exact .nil
  | some sides => exact .keep (.drop (h _ (by simp [ho])) .nil)

theorem trimmed_placeParts (h : ∀ y ∈ (t.placeParts id).drop 1, t.Silent y) :
    t.Trimmed (t.placeParts id) (t.placeOperands id) := by
  cases hk : t.kind id with
  | select =>
      simp only [placeParts, placeOperands, hk] at h ⊢
      exact trimmed_selected h
  | _ =>
      simp only [placeParts, placeOperands, hk]
      exact .refl _

/-- The operands that a node is run with are those that it is to evaluate, up to silent ones. -/
theorem trimmed_evaluated (hf : t.form u id = t.form .statement id)
    (h : ∀ y ∈ t.passedOver u id, t.Silent y) :
    t.Trimmed (t.evaluated id) (t.operandsOf u id) := by
  cases hk : t.kind id with
  | select =>
      simp only [passedOver, evaluated, operandsOf, hk] at h ⊢
      exact trimmed_selected h
  | assign =>
      simp only [passedOver, evaluated, operandsOf, hk] at h ⊢
      cases ho : t.operands? id with
      | none => exact .nil
      | some sides =>
          simp only [ho] at h
          exact (trimmed_placeParts h).append (.refl _)
  | _ =>
      cases u <;> simp [form, hk] at hf <;> simp only [evaluated, operandsOf, hk] <;> exact .refl _

/-! ## What is run and what is to be performed -/

namespace Spared

theorem passed (h : t.Spared u id) : ∀ y ∈ t.passedOver u id, t.Silent y := h u id .self

theorem needs {v : Usage} {x : NodeId} (h : t.Spared u id) (hx : t.Needs u id v x) :
    t.Spared v x := fun w y hy => h w y (.head hx hy)

theorem operands (h : t.Spared u id) : ∀ x ∈ t.operandsOf u id, t.Spared .expression x :=
  fun _ hx => h.needs (.operand hx)

/-- What is performed with the operands that a node is run with is performed with all. -/
theorem performs_evaluated (h : t.Spared u id) (hf : t.form u id = t.form .statement id)
    {w : List NodeId} {o : Outcome} (hp : t.Performs (.all (t.operandsOf u id)) w o) :
    t.Performs (.all (t.evaluated id)) w o := (trimmed_evaluated hf h.passed).performs hp

theorem test (h : t.Spared u id) (hf : t.form u id = .choice ∨ t.form u id = .repetition) :
    ∀ x ∈ t.part id 0, t.Spared .expression x := fun _ hx => h.needs (.test hf hx)

theorem branch (h : t.Spared u id) (hf : t.form u id = .choice) {place : Nat}
    (hplace : place = 1 ∨ place = 2) : ∀ x ∈ t.part id place, t.Spared .statement x :=
  fun _ hx => h.needs (.branch hf hplace hx)

theorem round (h : t.Spared u id) (hf : t.form u id = .repetition) :
    ∀ x ∈ t.part id 1, t.Spared .statement x := fun _ hx => h.needs (.round hf hx)

theorem items (h : t.Spared u id) (hf : t.form u id = .listing) :
    ∀ x ∈ t.significant id, t.Spared .statement x := fun _ hx => h.needs (.item hf hx)

end Spared

/-- Nothing is lost if the nodes of a closed list pass over silent nodes only. -/
theorem spared_of_closed (all : List (Usage × NodeId)) (passed : List NodeId)
    (hstart : (u, id) ∈ all) (hclosed : ∀ y ∈ all, ∀ z ∈ t.needsOf y.1 y.2, z ∈ all)
    (hover : ∀ y ∈ all, ∀ z ∈ t.passedOver y.1 y.2, z ∈ passed) (h : ∀ z ∈ passed, t.Silent z) :
    t.Spared u id :=
  fun _ _ hx z hz => h z (hover _ (hx.mem_of_closed hstart hclosed) z hz)

/-- Whether nothing is lost by what is passed over in running a phrase. -/
def SparedIn (t : Tree) : Phrase → Prop
  | .one u id => t.Spared u id
  | .all u ids => ∀ x ∈ ids, t.Spared u x

/-- What is run is performed. -/
theorem performs_of_runs {p : Phrase} {w : List NodeId} {o : Outcome} (h : t.Runs p w o)
    (hp : t.SparedIn p) : t.Performs p.portion w o := by
  induction h with
  | nil => exact .nil
  | cons _ _ ih₁ ih₂ =>
      obtain ⟨hx, hxs⟩ := List.forall_mem_cons.mp hp
      exact .cons (ih₁ hx) (ih₂ hxs)
  | cut _ ih => exact .cut (ih (List.forall_mem_cons.mp hp).1)
  | @operandLeaves u id v way hr ih =>
      by_cases hf : t.form u id = t.form .statement id
      · exact .operandLeaves (hp.performs_evaluated hf (ih hp.operands))
      · rw [(passedOver_of_form_ne hf).2.1] at hr
        cases hr
  | @evaluates u id v hform hr ih =>
      by_cases hf : t.form u id = t.form .statement id
      · exact .evaluates (hf ▸ hform) (hp.performs_evaluated hf (ih hp.operands))
      · obtain ⟨-, hnone, hover⟩ := passedOver_of_form_ne hf
        rw [hnone] at hr
        cases hr
        exact (hp.passed _ hover).performs
  | @stores u id v hform _ ih =>
      have hf := form_statement hform nofun
      exact .stores hf (hp.performs_evaluated (hform.trans hf.symm) (ih hp.operands))
  | @leaves u id v way hform _ ih =>
      have hf := form_statement hform nofun
      exact .leaves hf (hp.performs_evaluated (hform.trans hf.symm) (ih hp.operands))
  | lists hform _ ih => exact .lists (form_statement hform nofun) (ih (hp.items hform))
  | testLeaves hform _ ih =>
      refine .testLeaves ?_ (ih (hp.test hform))
      exact hform.imp (form_statement · nofun) (form_statement · nofun)
  | chooses hform hb _ _ ih₁ ih₂ =>
      exact .chooses (form_statement hform nofun) hb (ih₁ (hp.test (.inl hform)))
        (ih₂ (hp.branch hform hb))
  | stops hform _ ih =>
      exact .stops (form_statement hform nofun) (ih (hp.test (.inr hform)))
  | again hform _ _ hrep _ ih₁ ih₂ ih₃ =>
      exact .again (form_statement hform nofun) (ih₁ (hp.test (.inr hform)))
        (ih₂ (hp.round hform)) hrep (ih₃ hp)
  | exits hform _ _ hrep ih₁ ih₂ =>
      exact .exits (form_statement hform nofun) (ih₁ (hp.test (.inr hform)))
        (ih₂ (hp.round hform)) hrep

/-- Whether a portion is run so where nothing is lost by what is passed over. Of several nodes
silent ones may be missing. -/
def RunsSpared (t : Tree) : Portion → List NodeId → Outcome → Prop
  | .one id, w, o => ∀ u, t.Spared u id → t.Runs (.one u id) w o
  | .all ids, w, o => ∀ u kept, t.Trimmed ids kept → (∀ x ∈ kept, t.Spared u x) →
      t.Runs (.all u kept) w o

/-- Of a node that is performed only the places are of interest where it is not passed over. -/
theorem RunsSpared.one {w : List NodeId} {o : Outcome} (hp : t.Performs (.one id) w o)
    (h : ∀ u, t.Spared u id → t.form u id = t.form .statement id → t.Runs (.one u id) w o) :
    t.RunsSpared (.one id) w o := by
  intro u hs
  by_cases hf : t.form u id = t.form .statement id
  · exact h u hs hf
  · obtain ⟨hform, hnone, hover⟩ := passedOver_of_form_ne hf
    obtain ⟨rfl, rfl⟩ := (hs.passed _ hover w o).mp hp
    exact .evaluates hform (by rw [hnone]; exact .nil)

theorem RunsSpared.all {ids w : List NodeId} {o : Outcome} (h : t.RunsSpared (.all ids) w o)
    (hs : ∀ x ∈ ids, t.Spared u x) : t.Runs (.all u ids) w o := h u ids (.refl ids) hs

theorem RunsSpared.operands {w : List NodeId} {o : Outcome}
    (h : t.RunsSpared (.all (t.evaluated id)) w o) (hs : t.Spared u id)
    (hf : t.form u id = t.form .statement id) :
    t.Runs (.all .expression (t.operandsOf u id)) w o :=
  h .expression _ (trimmed_evaluated hf hs.passed) hs.operands

/-- What is to be performed is run. -/
theorem runsSpared_of_performs {p : Portion} {w : List NodeId} {o : Outcome}
    (h : t.Performs p w o) : t.RunsSpared p w o := by
  -- The operands that a node is run with are not those of the rule, so the induction is for what
  -- is left of a list without some of its silent nodes.
  induction h with
  | nil =>
      rintro u kept ⟨⟩ -
      exact .nil
  | cons h₁ _ ih₁ ih₂ =>
      intro u kept hkept hs
      cases hkept with
      | keep hrest =>
          obtain ⟨hx, hxs⟩ := List.forall_mem_cons.mp hs
          exact .cons (ih₁ u hx) (ih₂ u _ hrest hxs)
      | drop hx hrest =>
          obtain ⟨rfl, -⟩ := (hx _ _).mp h₁
          exact ih₂ u _ hrest hs
  | cut h₁ ih =>
      intro u kept hkept hs
      cases hkept with
      | keep => exact .cut (ih u (List.forall_mem_cons.mp hs).1)
      | drop hx => cases ((hx _ _).mp h₁).2
  | operandLeaves hp ih =>
      exact .one (.operandLeaves hp) fun u hs hf => .operandLeaves (ih.operands hs hf)
  | evaluates hform hp ih =>
      exact .one (.evaluates hform hp) fun u hs hf =>
        .evaluates (hf.trans hform) (ih.operands hs hf)
  | stores hform hp ih =>
      exact .one (.stores hform hp) fun u hs hf => .stores (hf.trans hform) (ih.operands hs hf)
  | leaves hform hp ih =>
      exact .one (.leaves hform hp) fun u hs hf => .leaves (hf.trans hform) (ih.operands hs hf)
  | lists hform hp ih =>
      refine .one (.lists hform hp) fun u hs hf => ?_
      have hform' := hf.trans hform
      exact .lists hform' (ih.all (hs.items hform'))
  | testLeaves hform hp ih =>
      refine .one (.testLeaves hform hp) fun u hs hf => ?_
      rw [← hf] at hform
      exact .testLeaves hform (ih.all (hs.test hform))
  | chooses hform hb h₁ h₂ ih₁ ih₂ =>
      refine .one (.chooses hform hb h₁ h₂) fun u hs hf => ?_
      rw [← hf] at hform
      exact .chooses hform hb (ih₁.all (hs.test (.inl hform))) (ih₂.all (hs.branch hform hb))
  | stops hform hp ih =>
      refine .one (.stops hform hp) fun u hs hf => ?_
      rw [← hf] at hform
      exact .stops hform (ih.all (hs.test (.inr hform)))
  | again hform h₁ h₂ hrep h₃ ih₁ ih₂ ih₃ =>
      refine .one (.again hform h₁ h₂ hrep h₃) fun u hs hf => ?_
      rw [← hf] at hform
      exact .again hform (ih₁.all (hs.test (.inr hform))) (ih₂.all (hs.round hform)) hrep (ih₃ u hs)
  | exits hform h₁ h₂ hrep ih₁ ih₂ =>
      refine .one (.exits hform h₁ h₂ hrep) fun u hs hf => ?_
      rw [← hf] at hform
      exact .exits hform (ih₁.all (hs.test (.inr hform))) (ih₂.all (hs.round hform)) hrep

/-- **What is run is what is to be performed**, if nothing is lost by what is passed over. -/
theorem runs_iff_performs (hs : t.Spared u id) {w : List NodeId} {o : Outcome} :
    t.Runs (.one u id) w o ↔ t.Performs (.one id) w o :=
  ⟨fun h => performs_of_runs h hs, fun h => runsSpared_of_performs h u hs⟩

theorem performs_all_silent {xs : List NodeId} (h : ∀ x ∈ xs, t.Silent x) {w : List NodeId}
    {o : Outcome} : t.Performs (.all xs) w o ↔ w = [] ∧ o = .completes := by
  induction xs generalizing w o with
  | nil =>
      constructor
      · rintro ⟨⟩
        exact ⟨rfl, rfl⟩
      · rintro ⟨rfl, rfl⟩
        exact .nil
  | cons x xs ih =>
      obtain ⟨hx, hxs⟩ := List.forall_mem_cons.mp h
      constructor
      · intro hp
        cases hp with
        | cons h₁ h₂ =>
            obtain ⟨rfl, -⟩ := (hx _ _).mp h₁
            exact (ih hxs).mp h₂
        | cut h₁ => cases ((hx _ _).mp h₁).2
      · rintro ⟨rfl, rfl⟩
        exact .cons hx.performs ((ih hxs).mpr ⟨rfl, rfl⟩)

/-- A node that only evaluates, and only what is silent, is silent. -/
theorem silent_of_evaluated (hf : t.form .statement id = .evaluation)
    (h : ∀ x ∈ t.evaluated id, t.Silent x) : t.Silent id := by
  intro w o
  constructor
  · intro hp
    cases hp with
    | operandLeaves hp => cases ((performs_all_silent h).mp hp).2
    | evaluates _ hp => exact (performs_all_silent h).mp hp
    | testLeaves hform => rcases hform with hform | hform <;> cases hf.symm.trans hform
    | stores hform | leaves hform | lists hform | chooses hform | stops hform | again hform
    | exits hform => cases hf.symm.trans hform
  · rintro ⟨rfl, rfl⟩
    exact .evaluates hf ((performs_all_silent h).mpr ⟨rfl, rfl⟩)

theorem silent_of_leaf (hf : t.form .statement id = .evaluation) (h : t.evaluated id = []) :
    t.Silent id := silent_of_evaluated hf (by simp [h])

end Tree

namespace Source

/-- **The flow graph of a body means what the body is written to do**, if nothing is lost by what
its code passes over. A function, a lambda or a block has a flow graph, and along its paths from
the entry to the normal exit one reads the assignments that the body performs and then completes or
returns, along those to the other exit the assignments that it performs and then throws. -/
theorem flow_performs {s : Source} (ht : s.tree.WellFormed) (hk : s.bodiesKnown = true)
    {owner body : NodeId} (hb : s.bodyOf? owner = some body)
    (hs : s.tree.Spared (s.bodyUsage body) body) :
    ∃ f, s.flow? owner = some f ∧ (f.instr f.entry).op = .enter ∧
      (f.instr exitId).op = .exit false ∧ (f.instr failureId).op = .exit true ∧
      ∀ w,
        ((∃ p, f.Path f.entry p exitId ∧ f.writes p = w) ↔
          s.tree.Performs (.one body) w .completes ∨
            s.tree.Performs (.one body) w (.leaves .returns)) ∧
        ((∃ p, f.Path f.entry p failureId ∧ f.writes p = w) ↔
          s.tree.Performs (.one body) w (.leaves .throws)) := by
  obtain ⟨f, hf, henter, hexit, hfailure, hruns⟩ := flow_runs ht hk hb
  simp only [Tree.runs_iff_performs hs] at hruns
  exact ⟨f, hf, henter, hexit, hfailure, hruns⟩

/-- The lambda `{ while (c) { if (d) { break }; x = a.g(b) } }`. -/
def callingLoop : Draft NodeId := do
  let c ← Draft.reference "c"
  let d ← Draft.reference "d"
  let leave ← Draft.breaks
  let test ← Draft.ifElse d [leave] none
  let x ← Draft.reference "x"
  let a ← Draft.reference "a"
  let b ← Draft.reference "b"
  let g ← Draft.call "g" [b] none
  let value ← Draft.select a g
  let store ← Draft.assign x value
  let loop ← Draft.whileLoop c [test, store]
  Draft.declare (← Draft.lambda [loop])

/-- A path that goes round the loop once, with one assignment, and then leaves it by the break. The
call behind the point is passed over, and it is silent. -/
theorem flow_performs_callingLoop :
    let s : Source := { tree := (callingLoop.run (Tree.ofFile "F")).2, framework := {} }
    s.tree.WellFormed ∧ s.bodiesKnown = true ∧ s.bodyOf? 16 = some 15 ∧
      s.tree.Spared (s.bodyUsage 15) 15 ∧ s.tree.passedOver .expression 11 = [10] ∧
      ∃ f, s.flow? 16 = some f ∧ ∃ p, f.Path f.entry p exitId ∧ f.writes p = [12] := by
  intro s
  have ht : s.tree.WellFormed := by decide +kernel
  have hb : s.bodyOf? 16 = some 15 := by decide +kernel
  have hcall : s.tree.Silent 10 := by
    refine Tree.silent_of_evaluated (by decide +kernel) ?_
    rw [show s.tree.evaluated 10 = [8] by decide +kernel, List.forall_mem_singleton]
    exact Tree.silent_of_leaf (by decide +kernel) (by decide +kernel)
  have hs : s.tree.Spared (s.bodyUsage 15) 15 := by
    refine Tree.spared_of_closed [(.statement, 15), (.statement, 14), (.expression, 1),
      (.statement, 13), (.statement, 5), (.expression, 2), (.statement, 4), (.statement, 3),
      (.statement, 12), (.expression, 11), (.expression, 7)] [10] (by decide +kernel)
      (by decide +kernel) (by decide +kernel) ?_
    rw [List.forall_mem_singleton]
    exact hcall
  obtain ⟨f, hf, -, -, -, h⟩ := flow_performs ht rfl hb hs
  refine ⟨ht, rfl, hb, hs, by decide +kernel, f, hf, (h [12]).1.mpr (.inl ?_)⟩
  have silent (id : NodeId) (h : s.tree.Silent id) : s.tree.Performs (.all [id]) [] .completes :=
    .cons h.performs .nil
  have test : s.tree.Performs (.all (s.tree.part 14 0)) [] .completes :=
    silent 1 (Tree.silent_of_leaf (by decide +kernel) (by decide +kernel))
  have testInside : s.tree.Performs (.all (s.tree.part 5 0)) [] .completes :=
    silent 2 (Tree.silent_of_leaf (by decide +kernel) (by decide +kernel))
  have value : s.tree.Silent 11 := by
    refine Tree.silent_of_evaluated (by decide +kernel) ?_
    rw [show s.tree.evaluated 11 = [7, 10] by decide +kernel]
    have receiver : s.tree.Silent 7 := Tree.silent_of_leaf (by decide +kernel) (by decide +kernel)
    simp [receiver, hcall]
  have store : s.tree.Performs (.one 12) [12] .completes :=
    @Tree.Performs.stores _ 12 [] (by decide +kernel) (silent 11 value)
  have pass : s.tree.Performs (.one 5) [] .completes :=
    @Tree.Performs.chooses _ 5 [] [] _ 2 (by decide +kernel) (.inr rfl) testInside .nil
  have round : s.tree.Performs (.one 13) [12] .completes :=
    .lists (by decide +kernel) (.cons pass (.cons store .nil))
  have jump : s.tree.Performs (.one 4) [] (.leaves .breaks) :=
    .lists (by decide +kernel) (.cut (.leaves (by decide +kernel) .nil))
  have leave : s.tree.Performs (.one 5) [] (.leaves .breaks) :=
    @Tree.Performs.chooses _ 5 [] [] _ 1 (by decide +kernel) (.inl rfl) testInside (.cut jump)
  have last : s.tree.Performs (.one 13) [] (.leaves .breaks) :=
    .lists (by decide +kernel) (.cut leave)
  have loop : s.tree.Performs (.one 14) [12] .completes :=
    @Tree.Performs.again _ 14 [] [12] [] _ _ (by decide +kernel) test (.cons round .nil) rfl
      (@Tree.Performs.exits _ 14 [] [] _ (by decide +kernel) test (.cut last) rfl)
  exact .lists (by decide +kernel) (.cons loop .nil)

/-- The lambda `{ a.g(if (c) { x = 1 }) }`. -/
def storeBehindPoint : Draft NodeId := do
  let a ← Draft.reference "a"
  let c ← Draft.reference "c"
  let x ← Draft.reference "x"
  let one ← Draft.literal "1"
  let store ← Draft.assign x one
  let argument ← Draft.ifElse c [store] none
  let g ← Draft.call "g" [argument] none
  let value ← Draft.select a g
  Draft.declare (← Draft.lambda [value])

/-- The function `fun f() = throw e`. -/
def thrownValue : Draft NodeId := do
  let e ← Draft.reference "e"
  let thrown ← Draft.throws e
  Draft.declare (← Draft.function { name := some "f" } [] thrown)

/-- Where a body can do one thing only, its paths do that, and they end at the normal exit. -/
theorem path_of_passes {s : Source} (ht : s.tree.WellFormed) (hk : s.bodiesKnown = true)
    {owner body : NodeId} (hb : s.bodyOf? owner = some body) {w : List NodeId}
    (h : s.tree.Passes (s.bodyUsage body) body w) {f : Flow} (hf : s.flow? owner = some f)
    {p : List InstrId} :
    (f.Path f.entry p exitId → f.writes p = w) ∧ ¬ f.Path f.entry p failureId := by
  obtain ⟨f', hf', -, -, -, hruns⟩ := flow_runs ht hk hb
  cases hf.symm.trans hf'
  constructor
  · intro hp
    rcases (hruns _).1.mp ⟨p, hp, rfl⟩ with hr | hr
    · exact ((h _ _).mp hr).1
    · cases ((h _ _).mp hr).2
  · intro hp
    cases ((h _ _).mp ((hruns _).2.mp ⟨p, hp, rfl⟩)).2

/-- The assignment in the argument behind the point is on no path, and no path ends where the
function throws. -/
theorem flow_passes_over :
    let s : Source := { tree := (storeBehindPoint.run (Tree.ofFile "F")).2, framework := {} }
    let r : Source := { tree := (thrownValue.run (Tree.ofFile "F")).2, framework := {} }
    (s.bodyOf? 12 = some 11 ∧ s.tree.Performs (.one 11) [5] .completes ∧
      ∃ f, s.flow? 12 = some f ∧ ∀ p, f.Path f.entry p exitId → f.writes p ≠ [5]) ∧
    r.bodyOf? 4 = some 2 ∧ r.tree.Performs (.one 2) [] (.leaves .throws) ∧
      ∃ f, r.flow? 4 = some f ∧ ∀ p, ¬ f.Path f.entry p failureId := by
  intro s r
  constructor
  · have ht : s.tree.WellFormed := by decide +kernel
    have hb : s.bodyOf? 12 = some 11 := by decide +kernel
    have value (id : NodeId) (hf : s.tree.form .statement id = .evaluation)
        (ho : s.tree.evaluated id = []) : s.tree.Performs (.one id) [] .completes :=
      (Tree.silent_of_leaf hf ho).performs
    have store : s.tree.Performs (.one 5) [5] .completes :=
      @Tree.Performs.stores _ 5 [] (by decide +kernel)
        (.cons (value 4 (by decide +kernel) (by decide +kernel)) .nil)
    have branch : s.tree.Performs (.one 6) [5] .completes :=
      .lists (by decide +kernel) (.cons store .nil)
    have argument : s.tree.Performs (.one 7) [5] .completes :=
      @Tree.Performs.chooses _ 7 [] [5] _ 1 (by decide +kernel) (.inl rfl)
        (.cons (value 2 (by decide +kernel) (by decide +kernel)) .nil) (.cons branch .nil)
    have call : s.tree.Performs (.one 9) [5] .completes :=
      .evaluates (by decide +kernel) (.cons argument .nil)
    have whole : s.tree.Performs (.one 10) [5] .completes :=
      .evaluates (by decide +kernel)
        (.cons (value 1 (by decide +kernel) (by decide +kernel)) (.cons call .nil))
    have passes : s.tree.Passes .statement 11 [] := by
      have receiver : s.tree.kind 1 = .reference "a" := by decide +kernel
      have value : s.tree.Passes .statement 10 [] := by
        refine Tree.passes_of_evaluation (by decide +kernel) ?_
        rw [show s.tree.operandsOf .statement 10 = [1] by decide +kernel,
          List.forall_mem_singleton]
        exact Tree.passes_reference receiver _
      have hform : s.tree.form .statement 11 = .listing := by decide +kernel
      have hitems : s.tree.significant 11 = [10] := by decide +kernel
      intro v o
      rw [Tree.runs_listing hform, hitems,
        Tree.runs_all_of_passes (w := fun _ => []) (List.forall_mem_singleton.mpr value)]
      rfl
    obtain ⟨f, hf, -⟩ := flow_runs ht rfl hb
    refine ⟨hb, .lists (by decide +kernel) (.cons whole .nil), f, hf, fun p hp => ?_⟩
    rw [(path_of_passes ht rfl hb passes hf).1 hp]
    nofun
  · have ht : r.tree.WellFormed := by decide +kernel
    have hb : r.bodyOf? 4 = some 2 := by decide +kernel
    have passes : r.tree.Passes (r.bodyUsage 2) 2 [] :=
      Tree.passes_of_evaluation (by decide +kernel)
        (by rw [show r.tree.operandsOf (r.bodyUsage 2) 2 = [] by decide +kernel]; nofun)
    obtain ⟨f, hf, -⟩ := flow_runs ht rfl hb
    have value : r.tree.Performs (.one 1) [] .completes := .evaluates (by decide +kernel) .nil
    exact ⟨hb, .leaves (by decide +kernel) (.cons value .nil), f, hf,
      fun p => (path_of_passes ht rfl hb passes hf).2⟩

end Source

end ComponentAudit
