import ComponentAudit.Proofs.Edit.Effect
import ComponentAudit.Proofs.Source.Names

set_option autoImplicit false

/-! # Parameters that the lambda does not use

Whether a parameter of a builder function is dropped depends on the names in the block of the lambda
alone. Elsewhere in the function a name can lose its declaration: an argument of the call may be the
only use of a parameter.

Main statement: `Builder.dropUnused_keeps_meaning`. Names in the block keep their meaning, and so do
all others whose meaning hangs on no parameter that is dropped.
-/

namespace ComponentAudit.Builder

variable {b : Builder} {fw : Framework} {t : Tree} {body list : NodeId}

theorem kind_of_needBody (hbody : b.needBody t = .ok body) : t.kind body = .block := by
  obtain ⟨call, lambda, -, -, -, hblock⟩ := spec_of_needBody hbody
  obtain ⟨-, hfind⟩ := Option.ite_none_right_eq_some.mp hblock
  simpa using List.find?_some hfind

theorem exists_body_of_run {n : Nat} {v : Tree}
    (hrun : Change.run (b.dropUnused fw) t = (.ok n, v)) : ∃ body, b.needBody t = .ok body := by
  cases hbody : b.needBody t with
  | ok body => exact ⟨body, rfl⟩
  | error e =>
      unfold dropUnused at hrun
      rw [Change.run_bind_ok (Change.run_source fw), Source.unusedPlan, hbody] at hrun
      cases hrun

section

variable (ht : t.WellFormed) (hattached : t.attached b.function = true)
  (hbody : b.needBody t = .ok body) {unused : List NodeId}
  (hunused : unused = ({ tree := t, framework := fw } : Source).unused b.function body)

include ht hattached hbody hunused

/-- A function without a parameter list has no parameters, so that there are none to drop.
Otherwise they are dropped from the list. -/
theorem dropped_unused : (unused = [] ∧ t.parameters b.function = []) ∨
    ∃ list call lambda, b.Parts t list call lambda body ∧ t.root ≠ list ∧
      t.Dropped list unused (unused.foldl Tree.detach t) := by
  cases hlist : t.parameterList? b.function with
  | none =>
      have hnone : t.parameters b.function = [] := by simp [Tree.parameters, hlist]
      exact .inl ⟨by simp [hunused, Source.unused, hnone], hnone⟩
  | some list =>
      obtain ⟨call, lambda, hcall, hkind, hlambda, hblock⟩ := spec_of_needBody hbody
      have hparts : b.Parts t list call lambda body :=
        ⟨hattached, hlist, hcall, hkind, hlambda, hblock⟩
      refine .inr ⟨list, call, lambda, hparts, fun heq => hparts.root_not_top ht (by simp [heq]),
        Tree.dropped_foldl_detach ht hparts.kind_list fun p hp => ?_⟩
      rw [hunused] at hp
      exact hparts.parent_parameter (s := { tree := t, framework := fw }) ht
        (List.mem_filter.mp hp).1

/-- What dropping parameters does, whether the function has a parameter list or not. -/
theorem run_dropUnused_of_body :
    Change.run (b.dropUnused fw) t = (.ok unused.length, unused.foldl Tree.detach t) := by
  rcases dropped_unused ht hattached hbody hunused with
    ⟨rfl, hnone⟩ | ⟨list, call, lambda, hparts, -⟩
  · unfold dropUnused
    rw [Change.run_bind_ok (Change.run_source fw), Source.unusedPlan, hbody]
    simp only [hnone]
    rfl
  · exact run_dropUnused hparts ht hunused

/-- The parameters that are left are those that a name in the block means. -/
theorem mem_parameters_iff {p : NodeId} (hp : p ∈ t.parameters b.function) :
    (p ∈ (unused.foldl Tree.detach t).parameters b.function ↔ p ∉ unused) ∧
      (p ∉ unused ↔ ∃ x ∈ ({ tree := t, framework := fw } : Source).namesBelow body,
        ({ tree := t, framework := fw } : Source).resolve? x = some p) := by
  constructor
  · rcases dropped_unused ht hattached hbody hunused with
      ⟨-, hnone⟩ | ⟨list, call, lambda, -, -, hd⟩
    · rw [hnone] at hp
      cases hp
    · simp [hd.parameters_eq ht, hp]
  · rw [hunused, Source.unused, List.mem_filter]
    simp [hp]

/-- A name that is still below the function means what it meant before, unless that hung on a
parameter that was dropped. -/
theorem resolve?_below_function {x : NodeId} (hx : (unused.foldl Tree.detach t).Under x b.function)
    (hfree : ∀ p ∈ unused, ¬ ({ tree := t, framework := fw } : Source).Relies p x) :
    ({ tree := unused.foldl Tree.detach t, framework := fw } : Source).resolve? x =
      ({ tree := t, framework := fw } : Source).resolve? x := by
  rcases dropped_unused ht hattached hbody hunused with
    ⟨rfl, -⟩ | ⟨list, call, lambda, -, hroot, hd⟩
  · rfl
  · -- parameters are inside the function, so there are none above it
    have htop : ∀ a, t.Under b.function a → a ∉ unused := by
      intro a ha hmem
      rw [hunused] at hmem
      exact ht.not_inside_of_under ha (ht.inside_of_parameter (List.mem_filter.mp hmem).1)
    exact Source.resolve?_eq_of_dropped (s := { tree := t, framework := fw }) hd ht hroot
      (hd.kept_of_under htop hx) hfree

/-- The block stays as it is, and so does what names in it mean. -/
theorem block_of_dropUnused :
    (unused.foldl Tree.detach t).children body = t.children body ∧
      (∀ n a, (unused.foldl Tree.detach t).Under n a → t.Under n a) ∧
      ∀ x, t.Under x body →
        ({ tree := unused.foldl Tree.detach t, framework := fw } : Source).resolve? x =
          ({ tree := t, framework := fw } : Source).resolve? x := by
  rcases dropped_unused ht hattached hbody hunused with
    ⟨rfl, -⟩ | ⟨list, call, lambda, hparts, hroot, hd⟩
  · exact ⟨rfl, fun _ _ h => h, fun _ _ => rfl⟩
  · have hspares := hparts.spares_unused (s := { tree := t, framework := fw }) ht
    rw [← hunused] at hspares
    exact ⟨hd.children_eq (hparts.list_ne_body ht).symm, fun _ _ => hd.under_of_under,
      fun x hx => hspares.resolve?_eq hd ht hroot hx⟩

end

/-- **Dropping parameters keeps what names mean.** The parameters that are left are those that a
name in the block of the lambda means. A name that is still below the function means what it meant
before, unless that hung on a parameter that was dropped, which is never so in the block. What
was dropped is not the meaning of any name afterwards. -/
theorem dropUnused_keeps_meaning {n : Nat} {v : Tree} (ht : t.WellFormed)
    (hattached : t.attached b.function = true)
    (hrun : Change.run (b.dropUnused fw) t = (.ok n, v)) :
    let s : Source := { tree := t, framework := fw }
    let after : Source := { tree := v, framework := fw }
    ∃ body, b.needBody t = .ok body ∧
      (∀ p ∈ t.parameters b.function,
        p ∈ v.parameters b.function ↔ ∃ x ∈ s.namesBelow body, s.resolve? x = some p) ∧
      (∀ x, v.Under x b.function →
        (∀ p ∈ t.parameters b.function, p ∉ v.parameters b.function → ¬ s.Relies p x) →
        after.resolve? x = s.resolve? x) ∧
      (∀ x, v.Under x body → after.resolve? x = s.resolve? x) ∧
      ∀ p ∈ t.parameters b.function, p ∉ v.parameters b.function →
        ∀ x, after.resolve? x ≠ some p := by
  intro s after
  obtain ⟨body, hbody⟩ := exists_body_of_run hrun
  generalize hunused : s.unused b.function body = unused
  have hunused := hunused.symm
  rw [run_dropUnused_of_body ht hattached hbody hunused] at hrun
  obtain rfl : unused.foldl Tree.detach t = v := (Prod.mk.inj hrun).2
  have hleft {p : NodeId} (hp : p ∈ t.parameters b.function) :=
    mem_parameters_iff ht hattached hbody hunused hp
  obtain ⟨-, hunder, hnames⟩ := block_of_dropUnused ht hattached hbody hunused
  refine ⟨body, hbody, fun p hp => (hleft hp).1.trans (hleft hp).2, fun x hx hfree => ?_,
    fun x hx => hnames x (hunder x body hx), ?_⟩
  · refine resolve?_below_function ht hattached hbody hunused hx fun p hp => ?_
    have hmem : p ∈ t.parameters b.function := (List.mem_filter.mp (hunused ▸ hp)).1
    exact hfree p hmem fun hin => (hleft hmem).1.mp hin hp
  · -- what a name means hangs somewhere
    intro p hp hgone x hx
    obtain ⟨q, hq, -⟩ := Source.parent_of_resolve? (ht.foldl_detach unused) hx
    have hdropped : p ∈ unused := by
      by_contra hnot
      exact hgone ((hleft hp).1.mpr hnot)
    obtain ⟨-, -, hview⟩ := Tree.foldl_detach ht unused
    rw [(hview p).2.1, if_pos hdropped] at hq
    cases hq

/-- A component `C` whose props have the field `f`, and the function
`fun RBuilder.c(x: CProps, y: Int) = child(C::class, x.f, y) { y }`. -/
def forwarding : Draft NodeId := do
  let f ← Draft.property "f" (some (.simple "Int")) true
  let props ← Draft.interface "CProps" [.simple "RProps"] [f]
  let _ ← Draft.declare props
  let base ← Draft.supertype (.generic "RComponent" [.simple "CProps", .simple "RState"]) (some [])
  let component ← Draft.classDecl "C" none [base] []
  let _ ← Draft.declare component
  let x ← Draft.parameter "x" (some (.simple "CProps")) none
  let y ← Draft.parameter "y" (some (.simple "Int")) none
  let name ← Draft.classRef "C"
  let receiver ← Draft.reference "x"
  let member ← Draft.reference "f"
  let first ← Draft.select receiver member
  let second ← Draft.reference "y"
  let use ← Draft.reference "y"
  let lambda ← Draft.lambda [use]
  let call ← Draft.call "child" [name, first, second] (some lambda)
  let decl : FunctionDecl := { name := some "c", receiver := some (.simple "RBuilder") }
  let function ← Draft.function decl [x, y] call
  Draft.declare function

/-- The second argument keeps its meaning, because the block uses the same parameter. -/
theorem dropUnused_keeps_meaning_forwarding :
    let t := (forwarding.run (Tree.ofFile "F")).2
    let b : Builder := { component := { decl := 5, base := 4 }, function := 21 }
    t.WellFormed ∧ ofFunction? { tree := t, framework := {} } 21 = some b ∧
      t.attached 21 = true ∧ ∃ v, Change.run (b.dropUnused {}) t = (.ok 1, v) ∧
      v.parameters 21 = [8] ∧ ({ tree := v, framework := {} } : Source).resolve? 14 = some 8 ∧
      ({ tree := v, framework := {} } : Source).resolve? 15 = some 8 := by
  intro t b
  let s : Source := { tree := t, framework := {} }
  have hfacts : t.WellFormed ∧ ofFunction? s 21 = some b ∧ t.attached 21 = true ∧
      b.needBody t = .ok 16 ∧ t.parameters 21 = [6, 8] ∧ s.asks? 14 = none ∧
      s.resolve? 14 = some 8 ∧ s.resolve? 15 = some 8 := by decide +kernel
  have hresult : (Change.run (b.dropUnused {}) t).1 = .ok 1 ∧
      (Change.run (b.dropUnused {}) t).2.parameters 21 = [8] ∧
      (Change.run (b.dropUnused {}) t).2.parent 14 = some 19 ∧
      (Change.run (b.dropUnused {}) t).2.parent 19 = some 21 ∧
      (Change.run (b.dropUnused {}) t).2.parent 15 = some 16 := by decide +kernel
  obtain ⟨ht, hb, hattached, hneed, hparameters, hasks, hsecond, huse⟩ := hfacts
  rcases hrun : Change.run (b.dropUnused {}) t with ⟨n, v⟩
  rw [hrun] at hresult
  obtain ⟨rfl, hleft, hparent, hcall, hblock⟩ := hresult
  obtain ⟨body, hbody, -, hkept, hinner, -⟩ := dropUnused_keeps_meaning ht hattached hrun
  obtain rfl : body = 16 := Except.ok.inj (hbody.symm.trans hneed)
  refine ⟨ht, hb, hattached, v, rfl, hleft, ?_, (hinner 15 (.single hblock)).trans huse⟩
  refine (hkept 14 (.head hparent (.single hcall)) fun p _ hp hrelies => ?_).trans hsecond
  -- a bare name hangs on nothing but what it means
  cases hrelies with
  | means _ hmeans =>
      obtain rfl : 8 = p := Option.some.inj (hsecond.symm.trans hmeans)
      refine hp ?_
      show 8 ∈ v.parameters 21
      rw [hleft]
      exact List.mem_singleton_self 8
  | asks hm _ => exact absurd (hasks.symm.trans hm) (by simp)

/-- **Arguments that lose their declaration.** The parameter that only an argument uses is dropped.
After that neither its name nor the member behind the point means anything. -/
theorem dropUnused_loses_argument :
    let t := (forwarding.run (Tree.ofFile "F")).2
    let b : Builder := { component := { decl := 5, base := 4 }, function := 21 }
    let s : Source := { tree := t, framework := {} }
    t.WellFormed ∧ ofFunction? s 21 = some b ∧ t.attached 21 = true ∧ s.resolve? 11 = some 6 ∧
      s.resolve? 12 = some 1 ∧ ∃ v, Change.run (b.dropUnused {}) t = (.ok 1, v) ∧
        v.isWithin 11 21 = true ∧ v.isWithin 12 21 = true ∧
        ({ tree := v, framework := {} } : Source).resolve? 11 = none ∧
        ({ tree := v, framework := {} } : Source).resolve? 12 = none := by
  intro t b s
  have hbefore : t.WellFormed ∧ ofFunction? s 21 = some b ∧ t.attached 21 = true ∧
      s.resolve? 11 = some 6 ∧ s.resolve? 12 = some 1 := by decide +kernel
  have hafter : (Change.run (b.dropUnused {}) t).1 = .ok 1 ∧
      (Change.run (b.dropUnused {}) t).2.isWithin 11 21 = true ∧
      (Change.run (b.dropUnused {}) t).2.isWithin 12 21 = true ∧
      ({ tree := (Change.run (b.dropUnused {}) t).2, framework := {} } : Source).resolve? 11 =
        none ∧
      ({ tree := (Change.run (b.dropUnused {}) t).2, framework := {} } : Source).resolve? 12 =
        none := by decide +kernel
  obtain ⟨ht, hb, hattached, hx, hf⟩ := hbefore
  rcases hrun : Change.run (b.dropUnused {}) t with ⟨n, v⟩
  rw [hrun] at hafter
  obtain ⟨rfl, hafter⟩ := hafter
  exact ⟨ht, hb, hattached, hx, hf, v, rfl, hafter⟩

end ComponentAudit.Builder
