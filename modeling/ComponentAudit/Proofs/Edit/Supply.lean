import ComponentAudit.Proofs.Edit.Effect

set_option autoImplicit false

/-! # What the edits of a plan supply

The edits that give a builder function what it lacks change types of parameters, and insert
parameters and statements. What is there after a number of them (`Edit.Supplied`) are the parameters
and statements of before, in their order, and for each inserting edit what it inserts.

Main statement: `Edit.supplied_outcome`.
-/

namespace ComponentAudit

namespace Tree

variable {t u v : Tree} {list body : NodeId}

theorem Built.sameBelow {x n : NodeId} {k : Kind} {cs : List NodeId} (h : t.Built n k cs)
    (hsame : t.SameBelow u x) (hn : t.Under n x) (hsize : t.size ≤ u.size) : u.Built n k cs where
  lt_size := Nat.lt_of_lt_of_le h.lt_size hsize
  kind_eq := (hsame n hn).1.trans h.kind_eq
  children_eq := (hsame n hn).2.trans h.children_eq

theorem StoreParts.sameBelow {x place r m y : NodeId} {receiver member value : String}
    (h : t.StoreParts x receiver member value place r m y) (ht : t.WellFormed)
    (hsame : t.SameBelow u x) (hsize : t.size ≤ u.size) :
    u.StoreParts x receiver member value place r m y := by
  have hplace : t.Under place x :=
    (ht.inside_of_child (by simp [h.statement.children_eq])).under
  have hy : t.Under y x := (ht.inside_of_child (by simp [h.statement.children_eq])).under
  have hr : t.Under r x :=
    (ht.inside_of_child (by simp [h.place.children_eq]) : t.Inside r place).under.trans hplace
  have hm : t.Under m x :=
    (ht.inside_of_child (by simp [h.place.children_eq]) : t.Inside m place).under.trans hplace
  exact ⟨h.statement.sameBelow hsame .refl hsize, h.place.sameBelow hsame hplace hsize,
    h.receiver.sameBelow hsame hr hsize, h.member.sameBelow hsame hm hsize,
    h.value.sameBelow hsame hy hsize⟩

theorem Kept.refl (ht : t.WellFormed) : t.Kept list body t :=
  ⟨ht, Nat.le_refl _, fun _ _ => rfl, fun _ _ => .refl⟩

theorem Kept.trans (h : t.Kept list body u) (ht : t.WellFormed) (h' : u.Kept list body v)
    (hlist : t.children list ⊆ u.children list) (hbody : t.children body ⊆ u.children body) :
    t.Kept list body v where
  wellFormed := h'.wellFormed
  size_le := Nat.le_trans h.size_le h'.size_le
  parameter p hp := (h'.parameter p (hlist hp)).trans (h.parameter p hp)
  statement x hx := (h.statement x hx).trans ht h.wellFormed (h'.statement x (hbody hx))

end Tree

namespace Edit

/-- What there is after edits that supply parameters, their types and statements. -/
structure Supplied (t : Tree) (list body : NodeId) (es : List Edit) (u : Tree) : Prop where
  kept : t.Kept list body u
  parameters : (t.children list).Sublist (u.children list)
  statements : (t.children body).Sublist (u.children body)
  /-- A parameter is old or one that an edit inserts, and then it has the type of the edit. -/
  parameter_cases : ∀ p ∈ u.children list, p ∈ t.children list ∨ t.size ≤ p ∧ ∃ after name,
    u.kind p = .parameter name none ∧ .addParameter list after name (u.writtenType? p) ∈ es
  /-- A statement is old or one that an edit inserts, or else it is a blank. -/
  statement_cases : ∀ x ∈ u.children body, x ∈ t.children body ∨ t.size ≤ x ∧
    (u.kind x = .blank "\n" ∨ ∃ after receiver field place r m y,
      u.StoreParts x receiver field field place r m y ∧
        .addAssignment body after receiver field ∈ es)
  /-- An old parameter has its old type unless an edit gives it another. -/
  types : ∀ p ∈ t.children list,
    u.writtenType? p = t.writtenType? p ∧ (∀ type, .retype p type ∉ es) ∨
      ∃ type, u.writtenType? p = some type ∧ .retype p type ∈ es
  /-- Every statement that an edit inserts is there. -/
  stores : ∀ {after : Option Anchor} {receiver field : String},
    .addAssignment body after receiver field ∈ es → ∃ x ∈ u.children body, t.size ≤ x ∧
      ∃ place r m y, u.StoreParts x receiver field field place r m y

namespace Supplied

variable {t u v : Tree} {list body : NodeId} {es es' : List Edit}

theorem nil (ht : t.WellFormed) : Supplied t list body [] t where
  kept := .refl ht
  parameters := .refl _
  statements := .refl _
  parameter_cases _ hp := .inl hp
  statement_cases _ hx := .inl hx
  types _ _ := .inl ⟨rfl, fun _ => List.not_mem_nil⟩
  stores h := absurd h List.not_mem_nil

/-- **The step**: what a single edit supplies. -/
theorem of_effect {created created' : List NodeId} {e : Edit} (hkept : u.Kept list body v)
    (he : Effect list body created u e created' v) : Supplied u list body [e] v := by
  cases he with
  | @retype p type _ hlist hbody htype htypes =>
      refine ⟨hkept, hlist ▸ .refl _, hbody ▸ .refl _, fun q hq => .inl (hlist ▸ hq),
        fun x hx => .inl (hbody ▸ hx), fun q hq => ?_, fun h => ?_⟩
      · by_cases hqp : q = p
        · exact .inr ⟨type, hqp ▸ htype, by simp [hqp]⟩
        · exact .inl ⟨htypes q hq hqp, by simp [hqp]⟩
      · simp at h
  | @addParameter after name type id _ hnew hlist hbody hkind htype htypes =>
      refine ⟨hkept, hlist.sublist, hbody ▸ .refl _, fun q hq => ?_, fun x hx => .inl (hbody ▸ hx),
        fun q hq => .inl ⟨htypes q hq, by simp⟩, fun h => ?_⟩
      · refine (hlist.mem_iff.mp hq).imp_right fun hid => ?_
        obtain rfl := List.mem_singleton.mp hid
        exact ⟨hnew, after, name, hkind, by simp [htype]⟩
      · simp at h
  | @addAssignment after receiver field id blank place r m y _ hnew hblank hlist hbody hstore hkind
      htypes =>
      refine ⟨hkept, hlist ▸ .refl _, hbody.sublist, fun q hq => .inl (hlist ▸ hq), fun x hx => ?_,
        fun q hq => .inl ⟨htypes q hq, by simp⟩, fun h => ?_⟩
      · refine (hbody.mem_iff.mp hx).imp_right fun hid => ?_
        rcases List.mem_pair.mp hid with rfl | rfl
        · exact ⟨hnew, .inr ⟨after, receiver, field, place, r, m, y, hstore, by simp⟩⟩
        · exact ⟨hblank, .inl hkind⟩
      · obtain ⟨-, -, rfl, rfl⟩ := addAssignment.inj (List.mem_singleton.mp h)
        exact ⟨id, hbody.mem_iff.mpr (.inr (by simp)), hnew, place, r, m, y, hstore⟩

/-- **The run**: what more edits supply, as long as these give types to old parameters only. -/
theorem append (h : Supplied t list body es u) (ht : t.WellFormed)
    (h' : Supplied u list body es' v)
    (hold : ∀ p type, .retype p type ∈ es' → p ∈ t.children list) :
    Supplied t list body (es ++ es') v where
  kept := h.kept.trans ht h'.kept h.parameters.subset h.statements.subset
  parameters := h.parameters.trans h'.parameters
  statements := h.statements.trans h'.statements
  parameter_cases p hp := by
    rcases h'.parameter_cases p hp with hp | ⟨hnew, after, name, hkind, hmem⟩
    · refine (h.parameter_cases p hp).imp_right fun ⟨hnew, after, name, hkind, hmem⟩ => ?_
      -- the parameter is new, so its type stays
      have htype : v.writtenType? p = u.writtenType? p := by
        rcases h'.types p hp with ⟨htype, -⟩ | ⟨type, -, hretype⟩
        · exact htype
        · have hlt := (ht.inside_of_child (hold p type hretype)).lt_size
          exact absurd hnew (Nat.not_le.mpr hlt)
      refine ⟨hnew, after, name, (h'.kept.parameter p hp).trans hkind, ?_⟩
      rw [htype]
      exact List.mem_append_left _ hmem
    · exact .inr ⟨Nat.le_trans h.kept.size_le hnew, after, name, hkind,
        List.mem_append_right _ hmem⟩
  statement_cases x hx := by
    rcases h'.statement_cases x hx with hx | ⟨hnew, hcases⟩
    · refine (h.statement_cases x hx).imp_right fun ⟨hnew, hcases⟩ => ⟨hnew, ?_⟩
      have hsame := h'.kept.statement x hx
      refine hcases.imp hsame.kind_eq.trans ?_
      rintro ⟨after, receiver, field, place, r, m, y, hstore, hmem⟩
      exact ⟨after, receiver, field, place, r, m, y,
        hstore.sameBelow h.kept.wellFormed hsame h'.kept.size_le, List.mem_append_left _ hmem⟩
    · refine .inr ⟨Nat.le_trans h.kept.size_le hnew, hcases.imp_right ?_⟩
      rintro ⟨after, receiver, field, place, r, m, y, hstore, hmem⟩
      exact ⟨after, receiver, field, place, r, m, y, hstore, List.mem_append_right _ hmem⟩
  types p hp := by
    rcases h'.types p (h.parameters.subset hp) with ⟨htype, hnone⟩ | ⟨type, htype, hmem⟩
    · rw [htype]
      refine (h.types p hp).imp (fun ⟨htype, hnone'⟩ => ⟨htype, fun type => ?_⟩)
        fun ⟨type, htype, hmem⟩ => ⟨type, htype, List.mem_append_left _ hmem⟩
      simp [hnone, hnone']
    · exact .inr ⟨type, htype, List.mem_append_right _ hmem⟩
  stores hmem := by
    rcases List.mem_append.mp hmem with hmem | hmem
    · obtain ⟨x, hx, hnew, place, r, m, y, hstore⟩ := h.stores hmem
      exact ⟨x, h'.statements.subset hx, hnew, place, r, m, y,
        hstore.sameBelow h.kept.wellFormed (h'.kept.statement x hx) h'.kept.size_le⟩
    · obtain ⟨x, hx, hnew, hparts⟩ := h'.stores hmem
      exact ⟨x, hx, Nat.le_trans h.kept.size_le hnew, hparts⟩

end Supplied

section

variable {b : Builder} {t : Tree} {list call lambda body : NodeId}
  (h : b.Parts t list call lambda body) (ht : t.WellFormed)

include h ht

theorem Supplies.below {e : Edit} (he : e.Supplies t list body) : e.Below t [list, body] := by
  cases e with
  | retype p type => exact ⟨list, by simp, ht.inside_of_child he⟩
  | addParameter l after name type =>
      obtain rfl : l = list := he
      exact ⟨by simp, h.not_loose_list ht⟩
  | addAssignment c after receiver field =>
      obtain rfl : c = body := he
      exact ⟨by simp, h.not_loose_of_above ht .refl⟩
  | dropStatement _ => exact he.elim
  | dropParameter _ => exact he.elim
  | rename _ _ => exact he.elim

theorem edited_outcome {es : List Edit} (hes : ∀ e ∈ es, e.Supplies t list body) :
    t.Edited [list, body] (outcome t es).2 := by
  rw [outcome, ← performAll_eq es ([], t)]
  exact edited_performAll ht (.refl ht) (fun e he => (hes e he).below h ht) []

theorem parts_outcome {es : List Edit} (hes : ∀ e ∈ es, e.Supplies t list body) :
    b.Parts (outcome t es).2 list call lambda body :=
  h.edited ht (edited_outcome h ht hes)

/-- What one more edit does. -/
theorem effect_concat {es : List Edit} {e : Edit} (hes : ∀ e ∈ es, e.Supplies t list body)
    (he : e.Supplies t list body) (hs : Supplied t list body es (outcome t es).2) :
    (outcome t es).2.Kept list body (outcome t (es ++ [e])).2 ∧
      Effect list body (outcome t es).1 (outcome t es).2 e (outcome t (es ++ [e])).1
        (outcome t (es ++ [e])).2 := by
  have hnow : e.Supplies (outcome t es).2 list body := by
    cases e with
    | retype p type => exact hs.parameters.subset he
    | _ => exact he
  rw [outcome_concat]
  exact effect_step (parts_outcome h ht hes) hs.kept.wellFormed (outcome t es).1 hnow

/-- **What all edits supply together.** -/
theorem supplied_outcome {es : List Edit} (hes : ∀ e ∈ es, e.Supplies t list body) :
    Supplied t list body es (outcome t es).2 := by
  induction es using List.reverseRecOn with
  | nil => exact .nil ht
  | append_singleton es e ih =>
      have hbefore : ∀ e ∈ es, e.Supplies t list body := fun e he => hes e (by simp [he])
      have he := hes e (by simp)
      have hs := ih hbefore
      obtain ⟨hkept, heffect⟩ := effect_concat h ht hbefore he hs
      refine hs.append ht (.of_effect hkept heffect) fun p type hmem => ?_
      obtain rfl := List.mem_singleton.mp hmem
      exact he

end

end Edit

end ComponentAudit
