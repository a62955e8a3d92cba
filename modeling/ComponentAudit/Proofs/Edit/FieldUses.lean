import ComponentAudit.Proofs.Edit.Unused

set_option autoImplicit false

/-! # Statements that use a field

Dropping a field from a builder function takes place in two steps. The statements that use the field
are removed, each with the blank behind it, and then the parameters without a use. Neither step
changes what the names left in the block mean: a name never means a statement, and no parameter that
is dropped is needed in the block.

Main statement: `Builder.dropField_removes_uses`.
-/

namespace ComponentAudit

namespace Tree

variable {t u : Tree} {body site : NodeId} {gone : List NodeId}

/-- **Removing statements of a block** drops them, and besides only blanks of the block. -/
theorem exists_dropped (hu : u.WellFormed) (hbody : u.kind body = .block) {ns : List NodeId}
    (hns : ∀ n ∈ ns, n ∈ u.children body) :
    ∃ gone, (ns.foldl dropStatement u).WellFormed ∧ u.Dropped body gone (ns.foldl dropStatement u) ∧
      (∀ n ∈ ns, n ∈ gone) ∧ ∀ g ∈ gone, g ∈ ns ∨ (u.kind g).isBlank = true := by
  obtain ⟨gone, heq, hall, hgone⟩ := exists_detach_of_foldl hu ns
  obtain ⟨hsize, hroot, hview⟩ := foldl_detach hu gone
  have hplace {g p : NodeId} (hg : g ∈ gone) (hp : u.parent g = some p) : p = body := by
    obtain ⟨n, hn, hnp⟩ := (hgone g hg).2 p hp
    exact Option.some.inj (hnp.symm.trans (hu.mem_children_iff.mp (hns n hn)))
  -- what hangs nowhere is taken out without effect, so only children of the block count
  have hchild {n p : NodeId} (hn : n ∈ gone) (hp : u.parent n = some p) : n ∈ u.children body :=
    hu.mem_children_iff.mpr (hplace hn hp ▸ hp)
  rw [heq]
  refine ⟨gone.filter (· ∈ u.children body), hu.foldl_detach gone, ?_, fun n hn => ?_,
    fun g hg => ?_⟩
  · refine ⟨.inr hbody, fun d hd => ?_, fun n => (hview n).1, hsize, hroot, fun {n} hn => ?_,
      fun d hd => ?_, fun {n} hn => ?_, ?_⟩
    · exact hu.mem_children_iff.mp (by simpa using (List.mem_filter.mp hd).2)
    · rw [(hview n).2.1]
      split
      · next hin =>
        cases hp : u.parent n with
        | none => rfl
        | some p => exact absurd (List.mem_filter.mpr ⟨hin, by simpa using hchild hin hp⟩) hn
      · rfl
    · rw [(hview d).2.1, if_pos (List.mem_filter.mp hd).1]
    · rw [(hview n).2.2, List.filter_eq_self]
      intro c hc
      have hnot : c ∉ gone := fun hin => hn (hplace hin (hu.mem_children_iff.mp hc))
      simpa using hnot
    · rw [(hview body).2.2]
      exact List.filter_congr fun c hc => by simp [hc]
  · exact List.mem_filter.mpr ⟨hall n hn, by simpa using hns n hn⟩
  · exact (hgone g (List.mem_filter.mp hg).1).1

namespace Dropped

variable (h : t.Dropped site gone u)

include h

/-- Above the place of the change nothing was dropped. -/
theorem kept_of_above (ht : t.WellFormed) {a : NodeId} (hx : t.Under site a) : a ∉ gone :=
  fun ha => ht.not_inside_of_under hx (.single (h.parent_dropped a ha))

/-- Blanks apart, the children that are left are those that were not to be dropped. -/
theorem significant_of_blanks {ns : List NodeId} (hall : ∀ n ∈ ns, n ∈ gone)
    (hgone : ∀ g ∈ gone, g ∈ ns ∨ (t.kind g).isBlank = true) :
    u.significant site = (t.significant site).filter (· ∉ ns) := by
  simp only [significant, h.children_list, h.kind_eq, List.filter_filter]
  refine List.filter_congr fun c _ => ?_
  by_cases hns : c ∈ ns
  · simp [hns, hall c hns]
  · by_cases hc : c ∈ gone
    · have hblank := (hgone c hc).resolve_left hns
      have htrivia : (t.kind c).isTrivia = true := by
        cases hk : t.kind c <;> simp_all [Kind.isBlank, Kind.isTrivia]
      simp [hns, hc, htrivia]
    · simp [hns, hc]

/-- A builder function keeps its block. -/
theorem needBody_eq (b : Builder) : b.needBody u = b.needBody t := by
  have hbody (n : NodeId) : u.functionBody? n = t.functionBody? n := by
    simp only [functionBody?, h.kind_eq]
    split
    · next hk =>
      rw [h.significant_eq (h.ne_list ?_)]
      rintro (hk' | hk') <;> simp [hk', Kind.isFunction] at hk
    · rfl
  have hblock (n : NodeId) : u.lambdaBody? n = t.lambdaBody? n := by
    simp only [lambdaBody?, h.kind_eq]
    split
    · next hk => exact h.child?_eq (h.ne_list (by simp [hk])) _
    · rfl
  have hconstruction : b.needConstruction u = b.needConstruction t := by
    simp only [Builder.needConstruction, Builder.construction?, hbody, h.kind_eq]
  have hfound (c : Construction) : c.body? u = c.body? t := by
    simp only [Construction.body?, Construction.lambda?, h.trailingLambda?_eq]
    exact Option.bind_congr fun lambda _ => hblock lambda
  rw [Builder.needBody_eq, Builder.needBody_eq, hconstruction]
  simp only [hfound]

end Dropped

end Tree

/-- No name means a statement of a block, or hangs on one. -/
theorem Source.not_relies_of_block {s : Source} (ht : s.tree.WellFormed) {body d n : NodeId}
    (hbody : s.tree.kind body = .block) (hroot : s.tree.root ≠ body)
    (hd : s.tree.parent d = some body) : ¬ s.Relies d n := by
  intro hrelies
  induction hrelies with
  | means _ hmeans =>
      obtain ⟨p, hp, hplace⟩ := Source.parent_of_resolve? ht hmeans
      obtain rfl : body = p := Option.some.inj (hd.symm.trans hp)
      exact hplace.elim hroot.symm (fun hne => hne hbody)
  | asks _ _ ih => exact ih

/-- The statements of a block in which a name means a declaration. -/
def Source.statementsUsing (s : Source) (decl body : NodeId) : List NodeId :=
  (s.tree.significant body).filter fun c =>
    (s.namesBelow c).any fun n => s.resolve? n == some decl

/-- The statements of a block without those in which a name means a declaration. -/
theorem Source.filter_not_mem_statementsUsing (s : Source) (decl body : NodeId) :
    (s.tree.significant body).filter (· ∉ s.statementsUsing decl body) =
      (s.tree.significant body).filter fun c =>
        ∀ x ∈ s.namesBelow c, s.resolve? x ≠ some decl := by
  refine List.filter_congr fun c hc => ?_
  simp [statementsUsing, hc]

/-- Where only statements without such names are left, a name in the block that means the
declaration hangs below a blank or a comment of the block. -/
theorem Source.exists_trivia {s after : Source} {decl body x : NodeId} (ht : s.tree.WellFormed)
    (hv : after.tree.WellFormed) (hbody : after.tree.kind body = .block)
    (hlt : body < after.tree.size) (hkind : ∀ n, after.tree.kind n = s.tree.kind n)
    (hunder : ∀ {n a}, after.tree.Under n a → s.tree.Under n a)
    (hleft : after.tree.significant body = (s.tree.significant body).filter fun c =>
      ∀ x ∈ s.namesBelow c, s.resolve? x ≠ some decl)
    (hx : x ∈ after.namesBelow body) (hmeans : s.resolve? x = some decl) :
    ∃ c ∈ after.tree.children body,
      (after.tree.kind c).isTrivia = true ∧ after.tree.Under x c := by
  obtain ⟨hxb, href⟩ := (mem_namesBelow_iff hv hlt).mp hx
  -- the block is no name, so the name is in one of its children
  rcases Relation.ReflTransGen.cases_tail hxb with rfl | ⟨c, hxc, hc⟩
  · simp [hbody, Kind.isReference] at href
  · refine ⟨c, hv.mem_children_iff.mpr hc, ?_, hxc⟩
    by_contra htrivia
    have hmem : c ∈ after.tree.significant body :=
      List.mem_filter.mpr ⟨hv.mem_children_iff.mpr hc, by simpa using htrivia⟩
    rw [hleft] at hmem
    obtain ⟨hold, hfree⟩ := List.mem_filter.mp hmem
    have hclt := (ht.inside_of_child (Tree.mem_children_of_significant hold)).lt_size
    refine of_decide_eq_true hfree x ((mem_namesBelow_iff ht hclt).mpr ⟨hunder hxc, ?_⟩) hmeans
    rwa [← hkind]

namespace Builder

variable {b : Builder} {fw : Framework} {t u : Tree} {body : NodeId} {gone : List NodeId}

/-! ## The first step -/

section

variable (ht : t.WellFormed) (hattached : t.attached b.function = true)
  (hbody : b.needBody t = .ok body)

include ht hattached hbody

theorem root_ne_body : t.root ≠ body := by
  rintro rfl
  exact ht.not_inside_of_under (ht.attached_iff.mp hattached) (inside_of_needBody ht hbody)

/-- When statements are dropped from the block, the function stays in the file and keeps its
block. -/
theorem body_of_dropped (hd : t.Dropped body gone u) :
    u.attached b.function = true ∧ b.needBody u = .ok body := by
  have hunder := (inside_of_needBody ht hbody).under
  have hancestors := hd.ancestors_eq fun a ha => hd.kept_of_above ht (hunder.trans ha)
  refine ⟨?_, (hd.needBody_eq b).trans hbody⟩
  rw [← hattached, Tree.attached, Tree.isWithin, Tree.lineage, hancestors, hd.root_eq]
  rfl

/-- Names left in the block mean what they meant before statements were dropped. -/
theorem resolve?_of_statements (hd : t.Dropped body gone u) {x : NodeId} (hx : u.Under x body) :
    ({ tree := u, framework := fw } : Source).resolve? x =
      ({ tree := t, framework := fw } : Source).resolve? x := by
  have hroot := root_ne_body ht hattached hbody
  refine Source.resolve?_eq_of_dropped (s := { tree := t, framework := fw }) hd ht hroot
    (hd.kept_of_under (fun a => hd.kept_of_above ht) hx) fun d hdrop => ?_
  exact Source.not_relies_of_block ht (kind_of_needBody hbody) hroot (hd.parent_dropped d hdrop)

/-! ## Both steps -/

/-- **What dropping a field does**: it removes the statements that use the field, and then it drops
the parameters that have no use after that. -/
theorem run_dropField (f : Field) {statements : List NodeId}
    (hstatements :
      statements = ({ tree := t, framework := fw } : Source).statementsUsing f.decl body)
    (hu : u = statements.foldl Tree.dropStatement t) (hd : t.Dropped body gone u)
    (hwf : u.WellFormed) {unused : List NodeId}
    (hunused : unused = ({ tree := u, framework := fw } : Source).unused b.function body) :
    Change.run (b.dropField fw f) t =
      (.ok (statements.length + unused.length), unused.foldl Tree.detach u) := by
  have hplan : Change.run (liftExcept (({ tree := t, framework := fw } : Source).fieldPlan b f)) t =
      (.ok (statements.map .dropStatement), t) := by
    rw [Change.run_liftExcept, Source.fieldPlan, hbody, hstatements]
    rfl
  have hcheck : ∀ e ∈ statements.map Edit.dropStatement, e.check t = .ok () := by
    intro e he
    obtain ⟨c, hc, rfl⟩ := List.mem_map.mp he
    rw [hstatements] at hc
    have hchild := Tree.mem_children_of_significant (List.mem_filter.mp hc).1
    refine SyncTask.check_eq_ok (fun m hm => ?_) (by simp)
    obtain rfl := List.mem_singleton.mp hm
    rw [ht.attached_iff] at hattached ⊢
    exact (ht.inside_of_child hchild).under.trans
      ((inside_of_needBody ht hbody).under.trans hattached)
  have happly : Change.run (Plan.apply (statements.map .dropStatement)) t =
      (.ok statements.length, u) := by
    rw [Plan.run_apply hcheck, List.length_map, Edit.performAll_eq _ ([], t),
      Edit.foldl_step_dropStatement, hu]
  obtain ⟨hattached', hbody'⟩ := body_of_dropped ht hattached hbody hd
  unfold dropField
  rw [Change.run_bind_ok (Change.run_source fw), Change.run_bind_ok hplan,
    Change.run_bind_ok happly,
    Change.run_bind_ok (run_dropUnused_of_body hwf hattached' hbody' hunused)]
  rfl

end

theorem run_dropField_error {e : EditError} (hbody : b.needBody t = .error e) (f : Field) :
    Change.run (b.dropField fw f) t = (.error e, t) := by
  unfold dropField
  rw [Change.run_bind_ok (Change.run_source fw), Source.fieldPlan, hbody]
  rfl

/-- **Dropping a field removes exactly its uses.** A refusal leaves the file as it is. Otherwise the
statements that are left in the block are those without a name that means the field, in their
order. Every name that is left in the block means what it meant before, and it means the field only
where it hangs below a blank or a comment of the block. -/
theorem dropField_removes_uses (fw : Framework) (f : Field) (ht : t.WellFormed)
    (hattached : t.attached b.function = true) :
    let s : Source := { tree := t, framework := fw }
    (∀ e v, Change.run (b.dropField fw f) t = (.error e, v) → v = t) ∧
      ∀ n v, Change.run (b.dropField fw f) t = (.ok n, v) →
        let after : Source := { tree := v, framework := fw }
        ∃ body, b.needBody t = .ok body ∧
          v.significant body = (t.significant body).filter (fun c =>
            ∀ x ∈ s.namesBelow c, s.resolve? x ≠ some f.decl) ∧
          (∀ x, v.Under x body → after.resolve? x = s.resolve? x) ∧
          ∀ x ∈ after.namesBelow body, after.resolve? x = some f.decl →
            ∃ c ∈ v.children body, (v.kind c).isTrivia = true ∧ v.Under x c := by
  intro s
  cases hbody : b.needBody t with
  | error e =>
      rw [run_dropField_error hbody]
      exact ⟨fun e' v h => (Prod.mk.inj h).2.symm, fun n v h => absurd (Prod.mk.inj h).1 (by simp)⟩
  | ok body =>
      generalize hstatements : s.statementsUsing f.decl body = statements
      have hchildren : ∀ c ∈ statements, c ∈ t.children body := fun c hc =>
        Tree.mem_children_of_significant (List.mem_filter.mp (hstatements ▸ hc)).1
      obtain ⟨gone, hwf, hd, hall, hgone⟩ :=
        Tree.exists_dropped ht (kind_of_needBody hbody) hchildren
      generalize hu : statements.foldl Tree.dropStatement t = u at hwf hd
      generalize hunused : ({ tree := u, framework := fw } : Source).unused b.function body = unused
      rw [run_dropField ht hattached hbody f hstatements.symm hu.symm hd hwf hunused.symm]
      obtain ⟨hattached', hbody'⟩ := body_of_dropped ht hattached hbody hd
      obtain ⟨hblock, hunder, hnames⟩ :=
        block_of_dropUnused hwf hattached' hbody' hunused.symm
      refine ⟨fun e v h => absurd (Prod.mk.inj h).1 (by simp), fun n v h => ?_⟩
      obtain rfl : unused.foldl Tree.detach u = v := (Prod.mk.inj h).2
      intro after
      have hkind (n : NodeId) : (unused.foldl Tree.detach u).kind n = t.kind n :=
        ((Tree.foldl_detach hwf unused).2.2 n).1.trans (hd.kind_eq n)
      have hleft : (unused.foldl Tree.detach u).significant body =
          (t.significant body).filter fun c =>
            ∀ x ∈ s.namesBelow c, s.resolve? x ≠ some f.decl := by
        have hsame : (unused.foldl Tree.detach u).significant body = u.significant body := by
          simp only [Tree.significant, hblock, hkind, hd.kind_eq]
        rw [hsame, hd.significant_of_blanks hall hgone, ← hstatements]
        exact s.filter_not_mem_statementsUsing f.decl body
      have hmeaning (x : NodeId) (hx : (unused.foldl Tree.detach u).Under x body) :
          after.resolve? x = s.resolve? x :=
        (hnames x (hunder x body hx)).trans
          (resolve?_of_statements ht hattached hbody hd (hunder x body hx))
      refine ⟨body, rfl, hleft, hmeaning, fun x hx hfield => ?_⟩
      have hlt : body < (unused.foldl Tree.detach u).size := by
        rw [(Tree.foldl_detach hwf unused).1]
        exact (inside_of_needBody hwf hbody').lt_size
      have hv := hwf.foldl_detach unused
      refine Source.exists_trivia (s := s) ht hv ((hkind body).trans (kind_of_needBody hbody)) hlt
        hkind (fun h => hd.under_of_under (hunder _ _ h)) hleft hx ?_
      rw [← hmeaning x ((Source.mem_namesBelow_iff hv hlt).mp hx).1, hfield]

/-- The parameters `x: CProps, y: Int`. -/
def propsParameters : Draft (List NodeId) := do
  let x ← Draft.parameter "x" (some (.simple "CProps")) none
  let y ← Draft.parameter "y" (some (.simple "Int")) none
  return [x, y]

/-- The statements `x.f; y` with a comment behind them. -/
def commentedUse (remark : Draft (List NodeId)) : Draft (List NodeId) := do
  let receiver ← Draft.reference "x"
  let member ← Draft.reference "f"
  let use ← Draft.select receiver member
  let newline ← Draft.newline
  let other ← Draft.reference "y"
  let comment ← Draft.branch (.comment "// x.f") (← remark)
  return [use, newline, other, comment]

/-- The first statement goes, and with it the parameter that it alone uses. -/
theorem dropField_removes_uses_commented :
    let t := ((Source.constructionOf propsParameters (commentedUse (pure []))).run
      (Tree.ofFile "F")).2
    let b : Builder := { component := { decl := 5, base := 4 }, function := 22 }
    t.WellFormed ∧ ofFunction? { tree := t, framework := {} } 22 = some b ∧ t.attached 22 = true ∧
      ∃ v, Change.run (b.dropField {} (t.fieldAt 1)) t = (.ok 2, v) ∧ v.parameters 22 = [8] ∧
        v.significant 17 = [15] ∧
        ({ tree := v, framework := {} } : Source).resolve? 15 = some 8 := by
  intro t b
  let s : Source := { tree := t, framework := {} }
  have hfacts : t.WellFormed ∧ ofFunction? s 22 = some b ∧ t.attached 22 = true ∧
      b.needBody t = .ok 17 ∧ s.resolve? 15 = some 8 ∧ (t.significant 17).filter (fun c =>
        ∀ x ∈ s.namesBelow c, s.resolve? x ≠ some (t.fieldAt 1).decl) = [15] := by decide +kernel
  have hresult : (Change.run (b.dropField {} (t.fieldAt 1)) t).1 = .ok 2 ∧
      (Change.run (b.dropField {} (t.fieldAt 1)) t).2.parameters 22 = [8] ∧
      (Change.run (b.dropField {} (t.fieldAt 1)) t).2.parent 15 = some 17 := by decide +kernel
  obtain ⟨ht, hb, hattached, hneed, hother, hfilter⟩ := hfacts
  rcases hrun : Change.run (b.dropField {} (t.fieldAt 1)) t with ⟨n, v⟩
  rw [hrun] at hresult
  obtain ⟨rfl, hparameters, hparent⟩ := hresult
  obtain ⟨body, hbody, hleft, hmeaning, -⟩ :=
    (dropField_removes_uses {} (t.fieldAt 1) ht hattached).2 2 v hrun
  obtain rfl : body = 17 := Except.ok.inj (hbody.symm.trans hneed)
  exact ⟨ht, hb, hattached, v, rfl, hparameters, hleft.trans hfilter,
    (hmeaning 15 (.single hparent)).trans hother⟩

/-- The expression `x.f`. -/
def usedField : Draft (List NodeId) := do
  let receiver ← Draft.reference "x"
  let member ← Draft.reference "f"
  let use ← Draft.select receiver member
  return [use]

/-- **A comment is no statement.** Names below a comment of the block are not looked at, so one that
means the field is left. -/
theorem dropField_leaves_comment :
    let t := ((Source.constructionOf propsParameters (commentedUse usedField)).run
      (Tree.ofFile "F")).2
    let b : Builder := { component := { decl := 5, base := 4 }, function := 25 }
    t.WellFormed ∧ ofFunction? { tree := t, framework := {} } 25 = some b ∧ t.attached 25 = true ∧
      b.needBody t = .ok 20 ∧
      ∃ v, Change.run (b.dropField {} (t.fieldAt 1)) t = (.ok 1, v) ∧ v.significant 20 = [15] ∧
        17 ∈ ({ tree := v, framework := {} } : Source).namesBelow 20 ∧
        ({ tree := v, framework := {} } : Source).resolve? 17 = some (t.fieldAt 1).decl := by
  intro t b
  have hbefore : t.WellFormed ∧ ofFunction? { tree := t, framework := {} } 25 = some b ∧
      t.attached 25 = true ∧ b.needBody t = .ok 20 := by decide +kernel
  have hafter : (Change.run (b.dropField {} (t.fieldAt 1)) t).1 = .ok 1 ∧
      (Change.run (b.dropField {} (t.fieldAt 1)) t).2.significant 20 = [15] ∧
      17 ∈ ({ tree := (Change.run (b.dropField {} (t.fieldAt 1)) t).2, framework := {} } :
        Source).namesBelow 20 ∧
      ({ tree := (Change.run (b.dropField {} (t.fieldAt 1)) t).2, framework := {} } :
        Source).resolve? 17 = some (t.fieldAt 1).decl := by decide +kernel
  obtain ⟨ht, hb, hattached, hbody⟩ := hbefore
  rcases hrun : Change.run (b.dropField {} (t.fieldAt 1)) t with ⟨n, v⟩
  rw [hrun] at hafter
  obtain ⟨rfl, hafter⟩ := hafter
  exact ⟨ht, hb, hattached, hbody, v, rfl, hafter⟩

end Builder

end ComponentAudit
