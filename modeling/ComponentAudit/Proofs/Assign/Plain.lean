import ComponentAudit.Proofs.Assign.Straight

set_option autoImplicit false

/-! # Plain statements

The statements of a lambda body are plain if each of them stores into a member of a name or is an
expression, and no assignment and no conditional hides in what is evaluated
(`Tree.PlainStatement`). Scopes that are opened inside, those of nested lambdas, are not looked at.

Main statement: `Tree.straight_of_plain`. A body of plain statements is straight.
-/

namespace ComponentAudit.Tree

variable {t : Tree} {base : String} {x : NodeId}

/-- Whether nothing in the scope of a node assigns or chooses. -/
def Calm (t : Tree) (x : NodeId) : Prop :=
  ∀ y, t.SameScope x y → t.kind y ≠ .assign ∧ t.kind y ≠ .ifElse

theorem SameScope.under {y : NodeId} (h : t.SameScope x y) : t.Under y x := by
  induction h with
  | refl => exact .refl
  | child _ _ hp ih => exact .head hp ih

theorem form_expression_eq {y : NodeId} (h : t.kind y ≠ .assign ∧ t.kind y ≠ .ifElse) :
    t.form .expression y = .evaluation := by
  unfold form
  split <;> simp_all

/-- What an evaluation involves is evaluated, if all is calm. -/
theorem Calm.form_eq_of_involves (h : t.Calm x) (ht : t.WellFormed) {u v : Usage}
    (hform : t.form u x = .evaluation) {y : NodeId} (hy : t.Involves u x v y) :
    t.form v y = .evaluation := by
  induction hy with
  | self => exact hform
  | next hinvolves hneeds ih =>
      cases hneeds with
      | operand hz =>
          have hscope := ht.sameScope_of_involves (.next hinvolves (.operand hz))
          exact form_expression_eq (h _ hscope)
      | test hchoice _ => simp [ih] at hchoice
      | branch hchoice _ _ => simp [ih] at hchoice
      | round hloop _ => simp [ih] at hloop
      | item hlist _ => simp [ih] at hlist

/-- Whether a statement stores into a member of a name or is an expression, and what it evaluates is
calm. -/
inductive PlainStatement (t : Tree) (base : String) (x : NodeId) : Prop
  | store {name : String} {place value : NodeId} (hstore : t.storedMember? base x = some name)
      (ho : t.operands? x = some (place, value)) (hcalm : t.Calm value)
  | expression (hform : t.form .statement x = .evaluation) (hcalm : t.Calm x)

/-- A plain statement involves evaluations, and itself. -/
theorem PlainStatement.eq_or_form_eq (h : t.PlainStatement base x) (ht : t.WellFormed) {v : Usage}
    {y : NodeId} (hy : t.Involves .statement x v y) :
    (y = x ∧ t.form v y = .store) ∨ t.form v y = .evaluation := by
  cases h with
  | expression hform hcalm => exact .inr (hcalm.form_eq_of_involves ht hform hy)
  | @store name place value hstore ho hcalm =>
      have hmember := storedMember?_eq_some_iff.mp hstore
      obtain ⟨hk, place', value', receiver, selector, ho', hselect, hparts, hreceiver, -⟩ :=
        memberStore?_eq_some_iff.mp hmember
      obtain ⟨rfl, rfl⟩ := Prod.mk.inj (Option.some.inj (ho.symm.trans ho'))
      have hform := form_of_memberStore? hmember .statement
      rcases hy.cases_head with ⟨rfl, rfl⟩ | ⟨w, z, hz, hinvolves⟩
      · exact .inl ⟨rfl, hform⟩
      · refine .inr ?_
        cases hz with
        | test hchoice _ => simp [hform] at hchoice
        | branch hchoice _ _ => simp [hform] at hchoice
        | round hloop _ => simp [hform] at hloop
        | item hlist _ => simp [hform] at hlist
        | operand hz =>
            have hz' : z = receiver ∨ z = value := by
              simpa [operandsOf, hk, ho, placeOperands, hselect, hparts] using hz
            rcases hz' with rfl | rfl
            · -- the receiver is a name, and nothing is evaluated before it
              have hname := kind_of_referenceName? hreceiver
              have hnone : t.operandsOf .expression z = [] := by
                unfold operandsOf
                simp [hname]
              have heval : t.form .expression z = .evaluation :=
                form_expression_eq (by simp [hname])
              rcases hinvolves.cases_head with ⟨rfl, rfl⟩ | ⟨_, _, hneeds, -⟩
              · exact heval
              · cases hneeds <;> simp_all
            · exact hcalm.form_eq_of_involves ht (form_expression_eq (hcalm z .refl)) hinvolves

/-- **A body of plain statements is straight.** -/
theorem straight_of_plain (ht : t.WellFormed) {body : NodeId} (hbody : t.kind body = .block)
    (h : ∀ x ∈ t.significant body, t.PlainStatement base x) : t.Straight base body := by
  have hlisting := form_of_block hbody
  have hcases {v : Usage} {y : NodeId} (hy : t.Involves .statement body v y) :
      t.form v y = .listing ∨ (y ∈ t.significant body ∧ t.form v y = .store) ∨
        t.form v y = .evaluation := by
    rcases hy.cases_head with ⟨rfl, rfl⟩ | ⟨w, z, hz, hinvolves⟩
    · exact .inl hlisting
    · cases hz with
      | operand hz =>
          rw [operandsOf_eq_nil (.inr (.inr hlisting))] at hz
          cases hz
      | test hchoice _ => simp [hlisting] at hchoice
      | branch hchoice _ _ => simp [hlisting] at hchoice
      | round hloop _ => simp [hlisting] at hloop
      | item _ hz =>
          rcases (h z hz).eq_or_form_eq ht hinvolves with ⟨rfl, hstore⟩ | heval
          · exact .inr (.inl ⟨hz, hstore⟩)
          · exact .inr (.inr heval)
  constructor
  · intro v y hy
    rcases hcases hy with hform | ⟨-, hform⟩ | hform <;> simp [hform]
  · intro v y name hy hstore
    have hform := form_of_memberStore? hstore v
    rcases hcases hy with hother | ⟨hmem, -⟩ | hother
    · simp [hform] at hother
    · exact hmem
    · simp [hform] at hother

/-! ## Checking statements -/

/-- Whether nothing below a node assigns or chooses, nested scopes included. -/
def CalmBelow (t : Tree) (x : NodeId) : Prop :=
  x < t.size ∧ ∀ y ∈ t.descendants x, t.kind y ≠ .assign ∧ t.kind y ≠ .ifElse

/-- Whether a statement is plain, and calm in nested scopes too. -/
def PlainBelow (t : Tree) (base : String) (x : NodeId) : Prop :=
  ((t.storedMember? base x).isSome = true ∧ ∀ ops ∈ t.operands? x, t.CalmBelow ops.2) ∨
    t.form .statement x = .evaluation ∧ t.CalmBelow x

instance (t : Tree) (x : NodeId) : Decidable (t.CalmBelow x) :=
  inferInstanceAs (Decidable (_ ∧ _))

instance (t : Tree) (base : String) (x : NodeId) : Decidable (t.PlainBelow base x) :=
  inferInstanceAs (Decidable (_ ∨ _))

theorem CalmBelow.calm (h : t.CalmBelow x) (ht : t.WellFormed) : t.Calm x :=
  fun y hy => h.2 y ((ht.mem_descendants_iff h.1).mpr hy.under)

theorem PlainBelow.plainStatement (h : t.PlainBelow base x) (ht : t.WellFormed) :
    t.PlainStatement base x := by
  rcases h with ⟨hstore, hcalm⟩ | ⟨hform, hcalm⟩
  · obtain ⟨name, hname⟩ := Option.isSome_iff_exists.mp hstore
    obtain ⟨-, place, value, -, -, ho, -⟩ :=
      memberStore?_eq_some_iff.mp (storedMember?_eq_some_iff.mp hname)
    exact .store hname ho ((hcalm (place, value) ho).calm ht)
  · exact .expression hform (hcalm.calm ht)

end ComponentAudit.Tree
