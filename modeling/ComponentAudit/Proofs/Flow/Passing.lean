import ComponentAudit.Proofs.Flow.Meaning

set_option autoImplicit false

/-! # Nodes with a single run

Most statements of a construction lambda can do one thing only: they make certain assignments and
complete (`Tree.Passes`). A list of such statements passes as well, and what passes first has been
done by every run of the list.
-/

namespace ComponentAudit.Tree

variable {t : Tree}

theorem form_reference {x : NodeId} {name : String} (h : t.kind x = .reference name) (u : Usage) :
    t.form u x = .evaluation := by
  cases u <;> simp [form, h]

theorem operandsOf_reference {x : NodeId} {name : String} (h : t.kind x = .reference name)
    (u : Usage) : t.operandsOf u x = [] := by
  cases u <;> simp [operandsOf, h]

/-- Whether a node has one run, which makes the given assignments and completes. -/
def Passes (t : Tree) (u : Usage) (x : NodeId) (w : List NodeId) : Prop :=
  ∀ v o, t.Runs (.one u x) v o ↔ v = w ∧ o = .completes

/-- Nodes with a single run, one after the other. -/
theorem runs_all_of_passes {u : Usage} {xs : List NodeId} {w : NodeId → List NodeId}
    (h : ∀ x ∈ xs, t.Passes u x (w x)) (v : List NodeId) (o : Outcome) :
    t.Runs (.all u xs) v o ↔ v = xs.flatMap w ∧ o = .completes := by
  induction xs generalizing v o with
  | nil =>
      constructor
      · rintro ⟨⟩
        exact ⟨rfl, rfl⟩
      · rintro ⟨rfl, rfl⟩
        exact .nil
  | cons x xs ih =>
      have hx := h x List.mem_cons_self
      have hxs := ih fun y hy => h y (List.mem_cons_of_mem _ hy)
      constructor
      · intro hruns
        cases hruns with
        | cons h₁ h₂ =>
            obtain ⟨rfl, -⟩ := (hx _ _).mp h₁
            obtain ⟨rfl, rfl⟩ := (hxs _ _).mp h₂
            exact ⟨rfl, rfl⟩
        | cut h₁ =>
            obtain ⟨-, hleaves⟩ := (hx _ _).mp h₁
            cases hleaves
      · rintro ⟨rfl, rfl⟩
        exact .cons ((hx _ _).mpr ⟨rfl, rfl⟩) ((hxs _ _).mpr ⟨rfl, rfl⟩)

/-- Operands with a single run, which assign nothing. -/
theorem runs_operands {u : Usage} {x : NodeId}
    (h : ∀ y ∈ t.operandsOf u x, t.Passes .expression y []) (v : List NodeId) (o : Outcome) :
    t.Runs (.all .expression (t.operandsOf u x)) v o ↔ v = [] ∧ o = .completes := by
  rw [runs_all_of_passes h, List.flatMap_eq_nil_iff.mpr fun _ _ => rfl]

theorem passes_of_evaluation {u : Usage} {x : NodeId} (hform : t.form u x = .evaluation)
    (h : ∀ y ∈ t.operandsOf u x, t.Passes .expression y []) : t.Passes u x [] := by
  intro v o
  rw [← runs_operands h]
  constructor
  · intro hruns
    cases hruns <;> simp_all
  · intro hruns
    obtain ⟨rfl, rfl⟩ := (runs_operands h v o).mp hruns
    exact .evaluates hform hruns

theorem passes_of_store {u : Usage} {x : NodeId} (hform : t.form u x = .store)
    (h : ∀ y ∈ t.operandsOf u x, t.Passes .expression y []) : t.Passes u x [x] := by
  intro v o
  have hops := runs_operands h
  constructor
  · intro hruns
    cases hruns <;> simp_all
  · rintro ⟨rfl, rfl⟩
    exact .stores hform ((hops [] .completes).mpr ⟨rfl, rfl⟩)

/-- The runs of a block are those of its statements. -/
theorem runs_listing {x : NodeId} (hform : t.form .statement x = .listing) (v : List NodeId)
    (o : Outcome) :
    t.Runs (.one .statement x) v o ↔ t.Runs (.all .statement (t.significant x)) v o := by
  have hops := operandsOf_eq_nil (.inr (.inr hform))
  constructor
  · intro hruns
    cases hruns with
    | lists _ hruns => exact hruns
    | operandLeaves hruns =>
        rw [hops] at hruns
        cases hruns
    | _ => simp_all
  · exact .lists hform

theorem passes_of_listing {x : NodeId} {w : NodeId → List NodeId}
    (hform : t.form .statement x = .listing)
    (h : ∀ y ∈ t.significant x, t.Passes .statement y (w y)) :
    t.Passes .statement x ((t.significant x).flatMap w) := by
  intro v o
  rw [runs_listing hform, runs_all_of_passes h]

/-- What a first statement with a single run assigns, all statements assign. -/
theorem mem_of_runs_cons {u : Usage} {x : NodeId} {xs v w : List NodeId} {o : Outcome}
    (hx : t.Passes u x w) (h : t.Runs (.all u (x :: xs)) v o) : w ⊆ v := by
  cases h with
  | cons h₁ _ =>
      rw [((hx _ _).mp h₁).1]
      exact List.subset_append_left _ _
  | cut h₁ => cases ((hx _ _).mp h₁).2

theorem passes_reference {x : NodeId} {name : String} (h : t.kind x = .reference name)
    (u : Usage) : t.Passes u x [] :=
  passes_of_evaluation (form_reference h u) (by simp [operandsOf_reference h u])

theorem passes_literal {x : NodeId} {text : String} (h : t.kind x = .literal text)
    (u : Usage) : t.Passes u x [] :=
  passes_of_evaluation (by cases u <;> simp [form, h]) (by cases u <;> simp [operandsOf, h])

end ComponentAudit.Tree
