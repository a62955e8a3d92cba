import ComponentAudit.Proofs.Source.Names

set_option autoImplicit false

/-! # Names that mean parameters

A bare name means a given parameter of a function around it exactly if none of the scopes between
the two takes the name, and if the parameter is the first one of that name in its list.

Main statements: `Source.lexical?_eq_parameter_iff` and `Source.resolve?_eq_parameter_iff`.
-/

namespace ComponentAudit

/-! ## The order in a list -/

/-- Where a list without repetitions is cut at a member, the members in front of it are those in the
first part. -/
theorem pair_sublist_iff_mem_left {before after : List NodeId} {p q : NodeId}
    (hnodup : (before ++ p :: after).Nodup) :
    [q, p].Sublist (before ++ p :: after) ↔ q ∈ before := by
  have hp : p ∉ after := (List.nodup_cons.mp (List.nodup_append.mp hnodup).2.1).1
  constructor
  · intro h
    obtain ⟨first, second, heq, hfirst, hsecond⟩ := List.sublist_append_iff.mp h
    cases first with
    | nil =>
        obtain rfl : [q, p] = second := heq
        refine absurd ?_ hp
        rcases List.sublist_cons_iff.mp hsecond with hsub | ⟨rest, hrest, hsub⟩
        · exact hsub.subset (by simp)
        · obtain rfl := (List.cons.inj hrest).2
          exact hsub.subset List.mem_cons_self
    | cons q' first =>
        obtain rfl := (List.cons.inj heq).1
        exact hfirst.subset List.mem_cons_self
  · intro h
    exact (List.singleton_sublist.mpr h).append (List.singleton_sublist.mpr List.mem_cons_self)

/-- The members behind it are those in the second part. -/
theorem pair_sublist_iff_mem_right {before after : List NodeId} {p q : NodeId}
    (hnodup : (before ++ p :: after).Nodup) :
    [p, q].Sublist (before ++ p :: after) ↔ q ∈ after := by
  have hp : p ∉ before := fun h =>
    (List.nodup_append.mp hnodup).2.2 p h p List.mem_cons_self rfl
  constructor
  · intro h
    obtain ⟨first, second, heq, hfirst, hsecond⟩ := List.sublist_append_iff.mp h
    cases first with
    | nil =>
        obtain rfl : [p, q] = second := heq
        exact List.singleton_sublist.mp (List.cons_sublist_cons.mp hsecond)
    | cons p' first =>
        obtain rfl := (List.cons.inj heq).1
        exact absurd (hfirst.subset List.mem_cons_self) hp
  · intro h
    refine List.Sublist.trans ?_ (List.sublist_append_right before _)
    exact List.cons_sublist_cons.mpr (List.singleton_sublist.mpr h)

namespace Tree

variable {t : Tree}

theorem inside_iff_of_parent {n p : NodeId} (hp : t.parent n = some p) (a : NodeId) :
    t.Inside n a ↔ t.Under p a := by
  constructor
  · intro h
    obtain ⟨q, hq, hqa⟩ := h.exists_parent
    obtain rfl : p = q := Option.some.inj (hp.symm.trans hq)
    exact hqa
  · exact fun h => .head' hp h

/-- The nodes above a node are those that it lies inside. -/
theorem WellFormed.mem_ancestors_iff (ht : t.WellFormed) {n a : NodeId} :
    a ∈ t.ancestors n ↔ t.Inside n a := by
  cases hp : t.parent n with
  | none =>
      refine iff_of_false (by simp [ancestors, hp, chain_none]) fun h => ?_
      obtain ⟨q, hq, -⟩ := h.exists_parent
      rw [hp] at hq
      cases hq
  | some p => rw [ht.ancestors_of_parent hp, ht.mem_lineage_iff, inside_iff_of_parent hp]

theorem children_of_operands? {id left right : NodeId}
    (h : t.operands? id = some (left, right)) : t.children id = [left, right] := by
  obtain ⟨-, h⟩ := Option.ite_none_right_eq_some.mp h
  split at h
  · next hc =>
    obtain ⟨rfl, rfl⟩ := Prod.mk.inj (Option.some.inj h)
    exact hc
  · cases h

end Tree

namespace Source

variable {s : Source} {name : String} {f p x : NodeId}

/-- A node is the first one of its name exactly if none in front of it has the name. -/
theorem firstNamed?_eq_some_iff {ids : List NodeId} (hnodup : ids.Nodup) (hp : p ∈ ids) :
    s.firstNamed? name ids = some p ↔
      s.tree.name? p = some name ∧ ∀ q, [q, p].Sublist ids → s.tree.name? q ≠ some name := by
  obtain ⟨before, after, rfl⟩ := List.append_of_mem hp
  constructor
  · intro h
    obtain ⟨hname, before', after', heq, hbefore⟩ := List.find?_eq_some_iff_append.mp h
    refine ⟨by simpa using hname, fun q hq => ?_⟩
    rw [heq] at hq hnodup
    simpa using hbefore q ((pair_sublist_iff_mem_left hnodup).mp hq)
  · rintro ⟨hname, hfirst⟩
    refine List.find?_eq_some_iff_append.mpr ⟨by simpa using hname, before, after, rfl, ?_⟩
    intro q hq
    simpa using hfirst q ((pair_sublist_iff_mem_left hnodup).mpr hq)

/-- A name stands behind a point if it is the second part of a selection. -/
theorem qualifier?_eq_some_iff {r : NodeId} : s.qualifier? x = some r ↔
    ∃ q, s.tree.parent x = some q ∧ s.tree.kind q = .select ∧ s.tree.children q = [r, x] := by
  constructor
  · intro h
    obtain ⟨q, hq, ho⟩ := parent_of_qualifier? h
    refine ⟨q, hq, ?_, Tree.children_of_operands? ho⟩
    by_contra hk
    simp [qualifier?, hq, hk] at h
  · rintro ⟨q, hq, hk, hc⟩
    simp [qualifier?, hq, hk, Tree.operands?, hc]

/-! ## Scopes in between -/

/-- Whether a scope leaves a name to the scopes around it. -/
def Passes (s : Source) (name : String) (scope : NodeId) : Prop :=
  (s.tree.kind scope).isFile = false ∧ ((s.tree.kind scope).isFunction = true →
    ∀ q ∈ s.tree.parameters scope, s.tree.name? q ≠ some name)

theorem firstNamed?_eq_none_iff {ids : List NodeId} :
    s.firstNamed? name ids = none ↔ ∀ q ∈ ids, s.tree.name? q ≠ some name := by
  simp [firstNamed?]

/-- What a name means in a scope that passes it on. -/
theorem lexicalFrom?_of_passes {scope : NodeId} (h : s.Passes name scope) (outer : List NodeId) :
    s.lexicalFrom? name (scope :: outer) = s.lexicalFrom? name outer := by
  obtain ⟨hfile, hfunction⟩ := h
  rw [lexicalFrom?]
  split
  · next hk =>
    rw [firstNamed?_eq_none_iff.mpr (hfunction (by simp [hk, Kind.isFunction]))]
  · next hk => simp [hk, Kind.isFile] at hfile
  · rfl

/-- A function or a file that does not pass a name on says what it means. -/
theorem lexicalFrom?_of_not_passes {scope : NodeId} (h : ¬ s.Passes name scope)
    {outer : List NodeId} (hd : s.lexicalFrom? name (scope :: outer) = some p) :
    p ∈ s.tree.parameters scope ∨ (s.tree.kind p).isParameter = false := by
  rw [lexicalFrom?] at hd
  split at hd
  · next hk =>
    split at hd
    · next q hq =>
      obtain rfl := Option.some.inj hd
      exact .inl (List.mem_of_find?_eq_some hq)
    · next hnone =>
      exact absurd ⟨by simp [hk, Kind.isFile], fun _ => firstNamed?_eq_none_iff.mp hnone⟩ h
  · have hfound := List.find?_some hd
    right
    cases hk : s.tree.kind p <;>
      simp_all [Kind.isParameter, Kind.isInterface, Kind.isClass, Kind.isFunction]
  · next hfunction hfile =>
    refine absurd ⟨?_, fun hk => ?_⟩ h
    · cases hk : s.tree.kind scope <;> simp_all [Kind.isFile]
    · cases hk' : s.tree.kind scope <;> simp_all [Kind.isFunction]

theorem isParameter_of_mem (hp : p ∈ s.tree.parameters f) :
    (s.tree.kind p).isParameter = true := by
  unfold Tree.parameters at hp
  split at hp
  · exact (List.mem_filter.mp hp).2
  · cases hp

section

variable (ht : s.tree.WellFormed) (hf : (s.tree.kind f).isFunction = true)
  (hp : p ∈ s.tree.parameters f)

include ht hp

/-- A parameter belongs to one function. -/
theorem eq_of_mem_parameters {f' : NodeId} (hp' : p ∈ s.tree.parameters f') : f' = f := by
  obtain ⟨list, hlist, -, hfunction⟩ := ht.parent_of_parameter hp
  obtain ⟨list', hlist', -, hfunction'⟩ := ht.parent_of_parameter hp'
  obtain rfl : list = list' := Option.some.inj (hlist.symm.trans hlist')
  exact Option.some.inj (hfunction'.symm.trans hfunction)

include hf

/-- At the function of a parameter, what counts is the order of its list. -/
theorem lexicalFrom?_lineage_self :
    s.lexicalFrom? name (s.tree.lineage f) = some p ↔
      s.firstNamed? name (s.tree.parameters f) = some p := by
  rw [Tree.lineage, lexicalFrom?]
  split
  · cases hq : s.firstNamed? name (s.tree.parameters f) with
    | some q => rfl
    | none =>
        refine iff_of_false (fun h => ?_) (by simp)
        rcases place_of_lexicalFrom? h with ⟨f', hmem, hp'⟩ | ⟨-, hkind⟩
        · obtain rfl := eq_of_mem_parameters ht hp hp'
          exact (List.nodup_cons.mp (ht.nodup_lineage f')).1 hmem
        · rw [isParameter_of_mem hp] at hkind
          cases hkind
  · next hk => simp [hk, Kind.isFunction] at hf
  · next hk _ => cases hk' : s.tree.kind f <;> simp_all [Kind.isFunction]

/-- The induction is from the function down to the place. -/
theorem lexicalFrom?_lineage {a : NodeId} (ha : s.tree.Under a f) :
    s.lexicalFrom? name (s.tree.lineage a) = some p ↔
      (∀ c, s.tree.Under a c → s.tree.Inside c f → s.Passes name c) ∧
        s.firstNamed? name (s.tree.parameters f) = some p := by
  induction ha using Relation.ReflTransGen.head_induction_on with
  | refl =>
      rw [lexicalFrom?_lineage_self ht hf hp]
      exact (and_iff_right fun c hc hinside => absurd hinside (ht.not_inside_of_under hc)).symm
  | @head a b hab hb ih =>
      have hinside : s.tree.Inside a f := .head' hab hb
      rw [ht.lineage_of_parent hab]
      by_cases hpass : s.Passes name a
      · rw [lexicalFrom?_of_passes hpass, ih]
        refine and_congr_left fun _ =>
          ⟨fun h c hac hc => ?_, fun h c hbc hc => h c (.head hab hbc) hc⟩
        rcases Relation.ReflTransGen.cases_head hac with rfl | ⟨b', hab', hbc⟩
        · exact hpass
        · obtain rfl : b = b' := Option.some.inj (Eq.trans (Eq.symm hab) hab')
          exact h c hbc hc
      · refine iff_of_false (fun h => ?_) fun h => hpass (h.1 a .refl hinside)
        rcases lexicalFrom?_of_not_passes hpass h with hmem | hkind
        · obtain rfl := eq_of_mem_parameters ht hp hmem
          exact ht.acyclic a hinside
        · rw [isParameter_of_mem hp] at hkind
          cases hkind

/-- **When a name means a parameter lexically.** -/
theorem lexical?_eq_parameter_iff (hx : s.tree.Inside x f) :
    s.lexical? x name = some p ↔
      (∀ c, s.tree.Inside x c → s.tree.Inside c f → s.Passes name c) ∧
        s.firstNamed? name (s.tree.parameters f) = some p := by
  obtain ⟨a, hxa, ha⟩ := hx.exists_parent
  rw [lexical?, ht.ancestors_of_parent hxa, lexicalFrom?_lineage ht hf hp ha]
  simp only [Tree.inside_iff_of_parent hxa]

/-- **When a name means a parameter**: it is bare, and it means the parameter lexically. -/
theorem resolve?_eq_parameter_iff (hx : s.tree.Inside x f) (hk : s.tree.kind x = .reference name) :
    s.resolve? x = some p ↔ s.qualifier? x = none ∧
      (∀ c, s.tree.Inside x c → s.tree.Inside c f → s.Passes name c) ∧
        s.firstNamed? name (s.tree.parameters f) = some p := by
  rw [← lexical?_eq_parameter_iff ht hf hp hx]
  have hkind := isParameter_of_mem hp
  constructor
  · intro h
    cases hq : s.qualifier? x with
    | none => exact ⟨rfl, lexical?_of_resolve? hk hq h hkind⟩
    | some receiver =>
        -- behind a point there are properties only
        simp only [resolve?, hk, referent?, Tree.referenceName?, Kind.referenceName?, hq,
          Option.bind_eq_bind, Option.bind_some] at h
        obtain ⟨owner, -, h⟩ := Option.bind_eq_some_iff.mp h
        obtain ⟨-, -, hproperty, -⟩ := exists_declares_of_member? h
        cases hk' : s.tree.kind p <;> simp_all [Kind.isParameter, Kind.isProperty]
  · rintro ⟨hq, h⟩
    exact resolve?_of_lexical? hk hq h

end

end Source

end ComponentAudit
