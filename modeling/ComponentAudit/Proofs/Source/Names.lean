import ComponentAudit.Proofs.Assign.Lambda
import ComponentAudit.Proofs.Edit.Parts
import ComponentAudit.Proofs.Source.Members

set_option autoImplicit false

/-! # What names mean

A name means a declaration that has it. In the lambda of a builder function a bare name means the
first parameter of the function with that name, then whatever it means around the function, and
last a property of one of the receivers.

Main statements: `Source.name?_of_resolve?`, `Source.parent_of_resolve?` and
`Builder.Parts.lexical?_eq`.
-/

namespace ComponentAudit

namespace Tree.WellFormed

variable {t : Tree} (ht : t.WellFormed) {d : NodeId}

include ht

/-- A parameter hangs below a list, which hangs below the function. -/
theorem parent_of_parameter {f : NodeId} (hd : d ∈ t.parameters f) :
    ∃ list, t.parent d = some list ∧ t.kind list = .parameterList ∧ t.parent list = some f := by
  unfold parameters at hd
  split at hd
  · next list hlist =>
    obtain ⟨-, hfind⟩ := Option.ite_none_right_eq_some.mp hlist
    exact ⟨list, ht.mem_children_iff.mp (List.mem_filter.mp hd).1, by
      simpa using List.find?_some hfind, ht.mem_children_iff.mp (List.mem_of_find?_eq_some hfind)⟩
  · cases hd

/-- A member hangs below its owner, which is an interface or a class. -/
theorem parent_of_member {owner : NodeId} (hd : d ∈ t.members owner) :
    t.parent d = some owner ∧ t.kind owner ≠ .block := by
  unfold members at hd
  split at hd
  · next hk =>
    refine ⟨ht.mem_children_iff.mp (mem_children_of_significant hd), fun hblock => ?_⟩
    simp [hblock, Kind.isInterface] at hk
  · split at hd
    · next hk =>
      have hmem := mem_children_of_significant (List.mem_filter.mp hd).1
      refine ⟨ht.mem_children_iff.mp hmem, fun hblock => ?_⟩
      simp [hblock, Kind.isClass] at hk
    · cases hd

end Tree.WellFormed

namespace Source

variable {s : Source} {name : String} {d : NodeId}

/-- What is found lexically is a parameter of a function around the name, or else one of the
declarations of the file. -/
theorem place_of_lexicalFrom? {scopes : List NodeId} (h : s.lexicalFrom? name scopes = some d) :
    (∃ f ∈ scopes, d ∈ s.tree.parameters f) ∨
      d ∈ s.tree.declarations ∧ (s.tree.kind d).isParameter = false := by
  induction scopes with
  | nil => cases h
  | cons scope scopes ih =>
      have houter (h : s.lexicalFrom? name scopes = some d) :
          (∃ f ∈ scope :: scopes, d ∈ s.tree.parameters f) ∨
            d ∈ s.tree.declarations ∧ (s.tree.kind d).isParameter = false := by
        refine (ih h).imp_left ?_
        rintro ⟨f, hf, hd⟩
        exact ⟨f, List.mem_cons_of_mem _ hf, hd⟩
      rw [lexicalFrom?] at h
      split at h
      · split at h
        · next p hp =>
          obtain rfl := Option.some.inj h
          exact .inl ⟨scope, List.mem_cons_self, List.mem_of_find?_eq_some hp⟩
        · exact houter h
      · have hfound := List.find?_some h
        refine .inr ⟨List.mem_of_find?_eq_some h, ?_⟩
        cases hk : s.tree.kind d <;>
          simp_all [Kind.isParameter, Kind.isInterface, Kind.isClass, Kind.isFunction]
      · exact houter h

theorem name?_of_lexicalFrom? {scopes : List NodeId} (h : s.lexicalFrom? name scopes = some d) :
    s.tree.name? d = some name := by
  induction scopes with
  | nil => cases h
  | cons scope scopes ih =>
      rw [lexicalFrom?] at h
      split at h
      · split at h
        · next p hp =>
          obtain rfl := Option.some.inj h
          simpa using List.find?_some hp
        · exact ih h
      · have hfound := List.find?_some h
        simp only [Bool.and_eq_true, beq_iff_eq] at hfound
        exact hfound.1
      · exact ih h

/-- A bound name means what it means lexically, or else a property of a receiver. -/
theorem declaration?_binding {place : NodeId} (h : (s.binding place name).declaration? = some d) :
    s.lexical? place name = some d ∨ (s.tree.kind d).isProperty = true ∧
      s.tree.name? d = some name ∧ ∃ owner, d ∈ s.tree.members owner := by
  unfold binding at h
  split at h
  · next decl hdecl =>
    obtain rfl : decl = d := Option.some.inj h
    exact .inl hdecl
  · dsimp only at h
    split at h
    · next r _ =>
      unfold memberMeaning at h
      split at h
      · cases h
      · split at h
        · next decl hdecl =>
          obtain rfl : decl = d := Option.some.inj h
          obtain ⟨owner, hmem, hproperty, hname⟩ := exists_declares_of_member? hdecl
          exact .inr ⟨hproperty, hname, owner, hmem⟩
        · cases h
    · split at h <;> cases h

/-- **A name means something of that name.** -/
theorem name?_of_resolve? {x : NodeId} (hk : s.tree.kind x = .reference name)
    (h : s.resolve? x = some d) : s.tree.name? d = some name := by
  simp only [resolve?, hk, referent?, Tree.referenceName?, Kind.referenceName?,
    Option.bind_eq_bind, Option.bind_some] at h
  split at h
  · obtain ⟨owner, -, h⟩ := Option.bind_eq_some_iff.mp h
    obtain ⟨-, -, -, hname⟩ := exists_declares_of_member? h
    exact hname
  · rcases declaration?_binding h with h | ⟨-, h, -⟩
    · exact name?_of_lexicalFrom? h
    · exact h

/-- A bare name that means a parameter does so lexically. -/
theorem lexical?_of_resolve? {x : NodeId} (hk : s.tree.kind x = .reference name)
    (hq : s.qualifier? x = none) (h : s.resolve? x = some d)
    (hd : (s.tree.kind d).isParameter = true) : s.lexical? x name = some d := by
  simp only [resolve?, hk, referent?, Tree.referenceName?, Kind.referenceName?, hq,
    Option.bind_eq_bind, Option.bind_some] at h
  refine (declaration?_binding h).resolve_right ?_
  rintro ⟨hproperty, -⟩
  cases hkind : s.tree.kind d <;> simp_all [Kind.isParameter, Kind.isProperty]

/-- A name means a parameter, a property of an interface or a class, or a declaration of the file.
So what it means never hangs below a block, unless the block is what the file consists of. -/
theorem parent_of_resolve? (ht : s.tree.WellFormed) {x : NodeId} (h : s.resolve? x = some d) :
    ∃ p, s.tree.parent d = some p ∧ (p = s.tree.root ∨ s.tree.kind p ≠ .block) := by
  have hdeclared (hd : d ∈ s.tree.declarations) :
      ∃ p, s.tree.parent d = some p ∧ (p = s.tree.root ∨ s.tree.kind p ≠ .block) :=
    ⟨s.tree.root, ht.mem_children_iff.mp (Tree.mem_children_of_significant hd), .inl rfl⟩
  have hmember {owner : NodeId} (hd : d ∈ s.tree.members owner) :
      ∃ p, s.tree.parent d = some p ∧ (p = s.tree.root ∨ s.tree.kind p ≠ .block) := by
    obtain ⟨hparent, hkind⟩ := ht.parent_of_member hd
    exact ⟨owner, hparent, .inr hkind⟩
  unfold resolve? at h
  split at h
  · obtain ⟨name, -, h⟩ := Option.bind_eq_some_iff.mp h
    split at h
    · obtain ⟨owner, -, h⟩ := Option.bind_eq_some_iff.mp h
      obtain ⟨owner, hd, -, -⟩ := exists_declares_of_member? h
      exact hmember hd
    · rcases declaration?_binding h with h | ⟨-, -, owner, hd⟩
      · rcases place_of_lexicalFrom? h with ⟨f, -, hd⟩ | ⟨hd, -⟩
        · obtain ⟨list, hparent, hkind, -⟩ := ht.parent_of_parameter hd
          exact ⟨list, hparent, .inr (by simp [hkind])⟩
        · exact hdeclared hd
      · exact hmember hd
  · unfold classOf? at h
    split at h
    · exact hdeclared (List.mem_of_find?_eq_some h)
    · cases h
  · cases h

/-! ## Values that are stored -/

/-- What is stored is a parameter only if the value is the name of the parameter. -/
theorem exists_of_storedParameter? {e p : NodeId} (h : s.storedParameter? e = some p) :
    ∃ place value name, s.tree.operands? e = some (place, value) ∧
      s.tree.kind value = .reference name ∧ s.resolve? value = some p ∧
      (s.tree.kind p).isParameter = true ∧ s.tree.name? p = some name := by
  obtain ⟨⟨place, value⟩, ho, h⟩ := Option.bind_eq_some_iff.mp h
  obtain ⟨href, h⟩ := Option.ite_none_right_eq_some.mp h
  obtain ⟨hresolve, hp⟩ := Option.filter_eq_some_iff.mp h
  obtain ⟨name, hk⟩ : ∃ name, s.tree.kind value = .reference name := by
    cases hk : s.tree.kind value <;> simp_all [Kind.isReference]
  exact ⟨place, value, name, ho, hk, hresolve, hp, name?_of_resolve? hk hresolve⟩

end Source

namespace Builder.Parts

variable {b : Builder} {s : Source} {list call lambda body : NodeId}
  (h : b.Parts s.tree list call lambda body) (ht : s.tree.WellFormed)

include h ht

/-- **What a name means in the lambda** of a builder function. -/
theorem lexical?_eq {x : NodeId} (hx : s.tree.SameScope body x) (name : String) :
    s.lexical? x name =
      (s.firstNamed? name (s.tree.parameters b.function)).or (s.lexical? b.function name) := by
  have hlambda := ht.mem_children_iff.mp h.lambda_spec.1
  have hcall := ht.mem_children_iff.mp h.mem_call
  rw [Source.lexical?_of_sameScope ht hx, Source.lexical?_body h.body_eq ht, Source.lexical?,
    ht.ancestors_of_parent hlambda, Tree.lineage, ht.ancestors_of_parent hcall, Tree.lineage,
    Source.lexicalFrom?, h.kind_call]
  have hfunction := h.kind_function
  cases hkind : s.tree.kind b.function with
  | function decl =>
      rw [Source.lexicalFrom?, hkind]
      cases s.firstNamed? name (s.tree.parameters b.function) with
      | none => simp [Source.lexical?]
      | some p => simp
  | _ => simp [hkind, Kind.isFunction] at hfunction

/-- The value that a statement of the block stores is not behind a point. -/
theorem scope_of_value {x place value : NodeId} (hx : x ∈ s.tree.children body)
    (hk : s.tree.kind x = .assign) (ho : s.tree.operands? x = some (place, value)) :
    s.tree.SameScope body value ∧ s.qualifier? value = none := by
  have hmem := (Tree.mem_children_of_operands? ho).2
  have hstatement : s.tree.SameScope body x :=
    ht.sameScope_of_child hx (by simp [Tree.opensScope, h.kind_body])
  refine ⟨hstatement.trans (ht.sameScope_of_child hmem (by simp [Tree.opensScope, hk])), ?_⟩
  simp [Source.qualifier?, ht.mem_children_iff.mp hmem, hk]

/-- A statement that stores the name of a parameter stores the first parameter of that name. -/
theorem storedParameter?_eq {x place value p : NodeId} {name : String}
    (hx : x ∈ s.tree.children body) (hk : s.tree.kind x = .assign)
    (ho : s.tree.operands? x = some (place, value)) (hvalue : s.tree.kind value = .reference name)
    (hp : s.firstNamed? name (s.tree.parameters b.function) = some p) :
    s.storedParameter? x = some p := by
  obtain ⟨hscope, hq⟩ := h.scope_of_value ht hx hk ho
  have hresolve : s.resolve? value = some p := by
    refine Source.resolve?_of_lexical? hvalue hq ?_
    rw [h.lexical?_eq ht hscope, hp]
    rfl
  have hparameter : (s.tree.kind p).isParameter = true := by
    have hmem := List.mem_of_find?_eq_some hp
    rw [Tree.parameters, h.list_eq] at hmem
    exact (List.mem_filter.mp hmem).2
  simp [Source.storedParameter?, ho, hvalue, Kind.isReference, hresolve, hparameter]

end Builder.Parts

end ComponentAudit
