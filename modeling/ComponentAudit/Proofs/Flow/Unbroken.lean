import ComponentAudit.Proofs.Flow.Involved
import ComponentAudit.Proofs.Tree.Moves

set_option autoImplicit false

/-! # Code that runs through

Where nothing repeats and nothing leaves, code is run from its first statement to its last
(`Tree.Unbroken`). Conditionals are allowed: whichever branch is taken, control comes back.

Main statements: `Tree.Unbroken.exists_runs` and `Tree.Unbroken.completes`. Unbroken code has a run,
and all its runs complete.
-/

namespace ComponentAudit.Tree

variable {t : Tree}

/-- The ways to go on from a node: it is the node itself, or one that it needs goes on. -/
theorem Involves.cases_head {u v : Usage} {x y : NodeId} (h : t.Involves u x v y) :
    (v = u ∧ y = x) ∨ ∃ w z, t.Needs u x w z ∧ t.Involves w z v y := by
  induction h with
  | self => exact .inl ⟨rfl, rfl⟩
  | next _ hneeds ih =>
      rcases ih with ⟨rfl, rfl⟩ | ⟨w, z, hz, hinvolves⟩
      · exact .inr ⟨_, _, hneeds, .self⟩
      · exact .inr ⟨w, z, hz, .next hinvolves hneeds⟩

/-- What a node involves, itself apart, lies inside it. -/
theorem WellFormed.inside_of_involves (ht : t.WellFormed) {u v : Usage} {x y : NodeId}
    (h : t.Involves u x v y) (hne : y ≠ x) : t.Inside y x := by
  induction h with
  | self => exact absurd rfl hne
  | @next _ _ y _ _ hneeds ih =>
      have hinside := ht.inside_of_needs hneeds
      by_cases hy : y = x
      · exact hy ▸ hinside
      · exact hinside.trans (ih hy)

/-- A phrase of nodes with a property. -/
def OfPhrase (P : Usage → NodeId → Prop) : Phrase → Prop
  | .one u x => P u x
  | .all u xs => ∀ x ∈ xs, P u x

/-- **What a run assigns, the node involves.** -/
theorem Runs.involves {p : Phrase} {w : List NodeId} {o : Outcome} (h : t.Runs p w o) {e : NodeId}
    (he : e ∈ w) :
    match p with
    | .one u x => ∃ v, t.Involves u x v e ∧ t.form v e = .store
    | .all u xs => ∃ x ∈ xs, ∃ v, t.Involves u x v e ∧ t.form v e = .store := by
  -- a node passes on what the nodes that it needs involve
  have pass {u v : Usage} {x : NodeId} {ys : List NodeId} (hys : ∀ y ∈ ys, t.Needs u x v y)
      (h : ∃ y ∈ ys, ∃ w, t.Involves v y w e ∧ t.form w e = .store) :
      ∃ w, t.Involves u x w e ∧ t.form w e = .store := by
    obtain ⟨y, hy, w, hinvolves, hform⟩ := h
    exact ⟨w, .head (hys y hy) hinvolves, hform⟩
  induction h with
  | nil => cases he
  | cons _ _ ih₁ ih₂ =>
      rcases List.mem_append.mp he with he | he
      · exact ⟨_, List.mem_cons_self, ih₁ he⟩
      · obtain ⟨x, hx, hinvolves⟩ := ih₂ he
        exact ⟨x, List.mem_cons_of_mem _ hx, hinvolves⟩
  | cut _ ih => exact ⟨_, List.mem_cons_self, ih he⟩
  | operandLeaves _ ih => exact pass (fun _ => .operand) (ih he)
  | evaluates _ _ ih => exact pass (fun _ => .operand) (ih he)
  | leaves _ _ ih => exact pass (fun _ => .operand) (ih he)
  | stores hform _ ih =>
      rcases List.mem_append.mp he with he | he
      · exact pass (fun _ => .operand) (ih he)
      · obtain rfl := List.mem_singleton.mp he
        exact ⟨_, .self, hform⟩
  | lists hform _ ih => exact pass (fun _ => .item hform) (ih he)
  | testLeaves hform _ ih => exact pass (fun _ => .test hform) (ih he)
  | chooses hform hbranch _ _ ih₁ ih₂ =>
      rcases List.mem_append.mp he with he | he
      · exact pass (fun _ => .test (.inl hform)) (ih₁ he)
      · exact pass (fun _ => .branch hform hbranch) (ih₂ he)
  | stops hform _ ih => exact pass (fun _ => .test (.inr hform)) (ih he)
  | again hform _ _ _ _ ih₁ ih₂ ih₃ =>
      rcases List.mem_append.mp he with he | he
      · rcases List.mem_append.mp he with he | he
        · exact pass (fun _ => .test (.inr hform)) (ih₁ he)
        · exact pass (fun _ => .round hform) (ih₂ he)
      · exact ih₃ he
  | exits hform _ _ _ ih₁ ih₂ =>
      rcases List.mem_append.mp he with he | he
      · exact pass (fun _ => .test (.inr hform)) (ih₁ he)
      · exact pass (fun _ => .round hform) (ih₂ he)

/-! ## Unbroken code -/

/-- Whether nothing that running a node involves repeats or leaves. -/
def Unbroken (t : Tree) (u : Usage) (x : NodeId) : Prop :=
  ∀ v y, t.Involves u x v y → t.form v y ≠ .repetition ∧ ∀ way, t.form v y ≠ .leave way

namespace Unbroken

variable {u : Usage} {x : NodeId}

theorem needs (h : t.Unbroken u x) {v : Usage} {y : NodeId} (hy : t.Needs u x v y) :
    t.Unbroken v y :=
  fun w z hz => h w z (.head hy hz)

theorem not_repetition (h : t.Unbroken u x) : t.form u x ≠ .repetition := (h u x .self).1

theorem not_leave (h : t.Unbroken u x) (way : Leave) : t.form u x ≠ .leave way :=
  (h u x .self).2 way

/-- **Unbroken code completes.** -/
theorem completes {p : Phrase} {w : List NodeId} {o : Outcome} (hw : t.Runs p w o)
    (h : OfPhrase t.Unbroken p) : o = .completes := by
  induction hw with
  | nil | evaluates | stores => rfl
  | cons _ _ _ ih => exact ih fun y hy => h y (List.mem_cons_of_mem _ hy)
  | cut _ ih => exact ih (h _ List.mem_cons_self)
  | operandLeaves _ ih => exact ih fun y hy => needs h (.operand hy)
  | leaves hform => exact absurd hform (not_leave h _)
  | lists hform _ ih => exact ih fun y hy => needs h (.item hform hy)
  | testLeaves hform _ ih => exact ih fun y hy => needs h (.test hform hy)
  | chooses hform hbranch _ _ _ ih => exact ih fun y hy => needs h (.branch hform hbranch hy)
  | stops hform | again hform | exits hform => exact absurd hform (not_repetition h)

/-- Nodes that all have a run have one together. -/
theorem exists_runs_all {xs : List NodeId}
    (h : ∀ x ∈ xs, ∃ w, t.Runs (.one u x) w .completes) :
    ∃ w, t.Runs (.all u xs) w .completes := by
  induction xs with
  | nil => exact ⟨[], .nil⟩
  | cons x xs ih =>
      obtain ⟨v, hv⟩ := h x List.mem_cons_self
      obtain ⟨w, hw⟩ := ih fun y hy => h y (List.mem_cons_of_mem _ hy)
      exact ⟨v ++ w, .cons hv hw⟩

/-- **Unbroken code has a run.** -/
theorem exists_runs (ht : t.WellFormed) (hx : x < t.size) (h : t.Unbroken u x) :
    ∃ w, t.Runs (.one u x) w .completes := by
  -- what a node needs lies deeper, and no node lies deeper than there are nodes
  obtain ⟨n, hn⟩ : ∃ n, t.size < t.depth x + n := ⟨t.size + 1, by omega⟩
  induction n generalizing u x with
  | zero => exact absurd (ht.depth_le_size hx) (by omega)
  | succ n ih =>
      have below {v : Usage} {ys : List NodeId} (hys : ∀ y ∈ ys, t.Needs u x v y) :
          ∃ w, t.Runs (.all v ys) w .completes := by
        refine exists_runs_all fun y hy => ?_
        have hinside := ht.inside_of_needs (hys y hy)
        have hdepth := ht.depth_lt_of_inside hinside
        exact ih hinside.lt_size (h.needs (hys y hy)) (by omega)
      obtain ⟨v, hv⟩ := below fun (y : NodeId) (hy : y ∈ t.operandsOf u x) => .operand hy
      cases hform : t.form u x with
      | evaluation => exact ⟨v, .evaluates hform hv⟩
      | store => exact ⟨v ++ [x], .stores hform hv⟩
      | leave way => exact absurd hform (h.not_leave way)
      | repetition => exact absurd hform h.not_repetition
      | listing =>
          obtain ⟨w, hw⟩ := below fun (y : NodeId) (hy : y ∈ t.significant x) => .item hform hy
          exact ⟨w, .lists hform hw⟩
      | choice =>
          obtain ⟨w₁, h₁⟩ := below fun (y : NodeId) (hy : y ∈ t.part x 0) => .test (.inl hform) hy
          obtain ⟨w₂, h₂⟩ :=
            below fun (y : NodeId) (hy : y ∈ t.part x 1) => .branch hform (.inl rfl) hy
          exact ⟨w₁ ++ w₂, .chooses hform (.inl rfl) h₁ h₂⟩

end Unbroken

end ComponentAudit.Tree
