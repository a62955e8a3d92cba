import ComponentAudit.Proofs.Assign.Sound
import ComponentAudit.Proofs.Audit.Offered

set_option autoImplicit false

/-! # Nothing is reported twice

Most diagnostics are left out when their message stands at the same node already. The refusals of
the members of a schema are not: they are written to the log as they are. They never repeat anything
all the same, because a member belongs to one schema, is judged once there, and lies too deep in the
file to be the place of any other diagnostic that the schemas give rise to.

Main statement: `Source.audit_reports_once`.
-/

namespace ComponentAudit

/-! ## Logs without repetitions -/

/-- No two diagnostics say the same at the same node. -/
def Log.Distinct (log : Log) : Prop :=
  log.Pairwise fun a b => ¬ (a.location = b.location ∧ a.message = b.message)

namespace Log

variable {log : Log} {d : Diagnostic}

theorem distinct_nil : Distinct [] := List.Pairwise.nil

theorem Distinct.add (h : log.Distinct)
    (hnew : ∀ a ∈ log, ¬ (a.location = d.location ∧ a.message = d.message)) :
    (log.add d).Distinct :=
  List.pairwise_append.mpr ⟨h, List.pairwise_singleton _ _, by simpa using hnew⟩

theorem Distinct.addNew (h : log.Distinct) : (log.addNew d).Distinct := by
  unfold Log.addNew
  split
  · exact h
  · next hnone =>
    refine h.add fun a ha hsame => hnone (List.any_eq_true.mpr ⟨a, ha, ?_⟩)
    simp [Diagnostic.repeats, hsame.1, hsame.2]

theorem Distinct.addEachNew {ds : List Diagnostic} (h : log.Distinct) :
    (log.addEachNew ds).Distinct := by
  induction ds generalizing log with
  | nil => exact h
  | cons d ds ih => exact ih h.addNew

/-- Diagnostics at places that are new to the log, each at a place of its own. -/
theorem Distinct.foldl_add {ds : List Diagnostic} (h : log.Distinct)
    (hplaces : (ds.map (·.location)).Nodup)
    (hnew : ∀ d ∈ ds, ∀ a ∈ log, a.location ≠ d.location) : (ds.foldl Log.add log).Distinct := by
  induction ds generalizing log with
  | nil => exact h
  | cons d ds ih =>
      obtain ⟨hd, hds⟩ := List.nodup_cons.mp hplaces
      refine ih (h.add fun a ha hsame => hnew d List.mem_cons_self a ha hsame.1) hds ?_
      intro e he a ha
      rcases List.mem_append.mp ha with ha | ha
      · exact hnew e (List.mem_cons_of_mem d he) a ha
      · rw [List.mem_singleton.mp ha]
        exact fun heq => hd (List.mem_map.mpr ⟨e, he, heq.symm⟩)

theorem mem_foldl_add {ds : List Diagnostic} (h : d ∈ ds.foldl Log.add log) : d ∈ log ∨ d ∈ ds := by
  induction ds generalizing log with
  | nil => exact .inl h
  | cons e ds ih =>
      rcases ih h with h | h
      · rcases List.mem_append.mp h with h | h
        · exact .inl h
        · exact .inr (List.mem_cons.mpr (.inl (List.mem_singleton.mp h)))
      · exact .inr (List.mem_cons_of_mem e h)

/-- Reports one after the other, each of which keeps the log free of repetitions. -/
theorem Distinct.foldl {α : Type} {report : Log → α → Log} {xs : List α} (h : log.Distinct)
    (hreport : ∀ log x, Distinct log → Distinct (report log x)) :
    Distinct (xs.foldl report log) := by
  induction xs generalizing log with
  | nil => exact h
  | cons x xs ih => exact ih (hreport log x h)

end Log

/-! ## Schemas -/

namespace Schema

variable {i : Schema} {s : Source}

/-- The member that a refusal is about. -/
theorem location_of_judge {m : NodeId} {d : Diagnostic} (h : i.judge s m = .refused d) :
    d.location = m := by
  rcases i.judge_cases s m with hj | hj | ⟨-, -, ⟨-, hj⟩ | ⟨name, hj⟩ | ⟨-, hj⟩⟩
  · cases hj.symm.trans h
  · cases hj.symm.trans h
    rfl
  · cases hj.symm.trans h
    rfl
  · cases hj.symm.trans h
    rfl
  · cases hj.symm.trans h

/-- What is found at the items of a list, each time with the item, stands in their order. -/
theorem sublist_filterMap {α β : Type} {f : α → Option β} {g : β → α} (xs : List α)
    (h : ∀ x y, f x = some y → g y = x) : ((xs.filterMap f).map g).Sublist xs := by
  induction xs with
  | nil => exact .slnil
  | cons x xs ih =>
      rw [List.filterMap_cons]
      split
      · exact ih.cons x
      · next y hy =>
        rw [List.map_cons, h x y hy]
        exact ih.cons_cons x

/-- The refusals stand at members, in their order. -/
theorem sublist_refusals : ((i.refusals s).map (·.location)).Sublist (s.tree.members i.decl) := by
  unfold refusals verdicts
  rw [List.filterMap_map]
  refine sublist_filterMap _ fun m d h => location_of_judge (i := i) (s := s) ?_
  rw [Function.comp_apply] at h
  split at h
  · next hjudge =>
    cases h
    exact hjudge
  · cases h

theorem sublist_members (t : Tree) (n : NodeId) : (t.members n).Sublist (t.children n) := by
  unfold Tree.members
  split
  · exact List.filter_sublist
  · split
    · exact List.filter_sublist.trans List.filter_sublist
    · exact List.nil_sublist _

variable (ht : s.tree.WellFormed)
include ht

theorem parent_of_mem_refusals {d : Diagnostic} (h : d ∈ i.refusals s) :
    s.tree.parent d.location = some i.decl :=
  ht.mem_children_iff.mp ((sublist_members s.tree i.decl).subset
    (sublist_refusals.subset (List.mem_map_of_mem h)))

/-- What a report on a schema adds stands at the schema or at a child of it. -/
theorem place_of_mem_audit {log : Log} {d : Diagnostic} (h : d ∈ i.audit s log) :
    d ∈ log ∨ d.location = i.decl ∨ s.tree.parent d.location = some i.decl := by
  have hrefusal : ∀ {e}, e ∈ (i.refusals s).foldl Log.add log →
      e ∈ log ∨ e.location = i.decl ∨ s.tree.parent e.location = some i.decl := fun he =>
    (Log.mem_foldl_add he).imp_right fun he => .inr (parent_of_mem_refusals ht he)
  unfold audit at h
  dsimp only at h
  split at h
  · rcases Log.mem_addNew h with h | rfl
    · exact hrefusal h
    · exact .inr (.inl rfl)
  · exact hrefusal h

/-- A report on a schema repeats nothing if none of its children has been reported on. -/
theorem distinct_audit {log : Log} (h : log.Distinct)
    (hnew : ∀ a ∈ log, s.tree.parent a.location ≠ some i.decl) : (i.audit s log).Distinct := by
  have hrefusals : ((i.refusals s).foldl Log.add log).Distinct := by
    refine h.foldl_add ?_ fun d hd a ha heq => hnew a ha (heq ▸ parent_of_mem_refusals ht hd)
    exact (sublist_refusals.trans (sublist_members s.tree i.decl)).nodup (ht.nodup_children i.decl)
  unfold audit
  dsimp only
  split
  · exact hrefusals.addNew
  · exact hrefusals

end Schema

namespace Source

variable {s : Source} (ht : s.tree.WellFormed)
include ht

/-- Reports on schemas that are declared beside each other. None of them is a child of another one,
so what has been reported so far stands at no child of those that are still to come. -/
theorem distinct_foldl_schemas {p : NodeId} {is : List Schema} {log : Log}
    (hnodup : (is.map (·.decl)).Nodup) (hparent : ∀ i ∈ is, s.tree.parent i.decl = some p)
    (h : log.Distinct) (hnew : ∀ i ∈ is, ∀ a ∈ log, s.tree.parent a.location ≠ some i.decl) :
    (is.foldl (fun log i => i.audit s log) log).Distinct := by
  induction is generalizing log with
  | nil => exact h
  | cons i is ih =>
      obtain ⟨hi, his⟩ := List.nodup_cons.mp hnodup
      refine ih his (fun j hj => hparent j (List.mem_cons_of_mem i hj))
        (Schema.distinct_audit ht h (hnew i List.mem_cons_self)) ?_
      intro j hj a ha hchild
      have hp := hparent j (List.mem_cons_of_mem i hj)
      rcases Schema.place_of_mem_audit ht ha with ha | ha | ha
      · exact hnew j (List.mem_cons_of_mem i hj) a ha hchild
      · -- the place is the schema itself, whose parent is above the other one
        rw [ha, hparent i List.mem_cons_self] at hchild
        rw [← Option.some.inj hchild] at hp
        exact ht.acyclic p (.single hp)
      · rw [ha] at hchild
        exact hi (List.mem_map.mpr ⟨j, hj, (Option.some.inj hchild).symm⟩)

theorem distinct_auditSchemas : (s.auditSchemas []).Distinct := by
  have hdecls : ((s.tree.declarations.filterMap (Schema.of? s.tree s.framework)).map
      (·.decl)).Sublist s.tree.declarations := by
    refine Schema.sublist_filterMap _ fun d i hi => ?_
    obtain ⟨role, -, rfl⟩ := Option.map_eq_some_iff.mp hi
    rfl
  have hsub := hdecls.trans List.filter_sublist
  have hparent : ∀ i ∈ s.tree.declarations.filterMap (Schema.of? s.tree s.framework),
      s.tree.parent i.decl = some s.tree.root := fun i hi =>
    ht.mem_children_iff.mp (hsub.subset (List.mem_map_of_mem hi))
  exact distinct_foldl_schemas ht (hsub.nodup (ht.nodup_children s.tree.root)) hparent
    Log.distinct_nil (by simp)

/-- **Nothing is reported twice.** No two diagnostics of all audits of a file have the same place
and the same message. -/
theorem audit_reports_once : s.auditAll.Distinct := by
  have hcomponents : (s.auditComponents (s.auditSchemas [])).Distinct :=
    (distinct_auditSchemas ht).foldl fun _ _ h => h.addEachNew
  show (s.auditConstructions (s.auditComponents (s.auditSchemas []))).Distinct
  refine hcomponents.foldl fun log c h => ?_
  unfold Construction.audit
  split
  · exact h
  · split
    · exact h.addEachNew
    · exact h.addEachNew

omit ht in
/-- Two functions construct the component without its field. Each is reported, and both have the
field and the class to complain about, which the log says once. -/
theorem audit_reports_once_sharedGap :
    let build := constructionOf (pure []) (pure [])
    let s : Source :=
      { tree := (build.run (build.run (Tree.ofFile "F")).2).2, framework := {} }
    s.tree.WellFormed ∧
      ((s.tree.descendants s.tree.root).filterMap (Construction.ofCall? s)).map
        (fun c => ((c.audit s []).map (·.location))) = [[1, 12, 5], [1, 24, 5]] ∧
      (s.auditAll.filter (·.location = 1)).length = 1 ∧ s.auditAll.Distinct := by
  intro build s
  have ht : s.tree.WellFormed := by decide +kernel
  exact ⟨ht, by decide +kernel, by decide +kernel, audit_reports_once ht⟩

end Source

end ComponentAudit
