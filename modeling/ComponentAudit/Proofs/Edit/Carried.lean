import ComponentAudit.Proofs.Edit.Strays
import ComponentAudit.Proofs.Source.Scopes

set_option autoImplicit false

/-! # Names and parameters through the edits of a plan

The edits of a plan give names to parameters and to names in the block, insert parameters and
statements, and take statements out. What was in the block before keeps its children all the while,
apart from what is taken out, and its kind up to a new name (`Tree.Carried`). So a name that is
still in the file has the same nodes around it, it does not come to stand behind a point, and the
functions inside the block have the parameters that they had.

Main statements: `Tree.Carried.inside_iff`, `Tree.Carried.qualifier?_eq_none` and
`Tree.Carried.passes_iff`.
-/

namespace ComponentAudit

/-! ## Renaming -/

namespace Kind

/-- The kind with another name, for parameters and for names that are used. -/
def withName (name : String) : Kind → Kind
  | .parameter _ initial => .parameter name initial
  | .reference _ => .reference name
  | k => k

@[simp] theorem withName_withName (name : String) (k : Kind) :
    (k.withName name).withName name = k.withName name := by
  cases k <;> rfl

end Kind

namespace Tree

variable {t u v w : Tree} {list body n : NodeId} {name : String}

theorem kind_renameLocal (t : Tree) (n m : NodeId) (name : String) :
    (t.renameLocal n name).kind m =
      if m = n then (t.kind m).withName name else t.kind m := by
  by_cases hmn : m = n
  · subst hmn
    rw [if_pos rfl, renameLocal]
    split
    · next hk =>
      have hlt : m < t.size := Nat.lt_of_not_le fun hle => by simp [kind_of_le hle] at hk
      simp [kind_setKind, hlt, hk, Kind.withName]
    · next hk =>
      have hlt : m < t.size := Nat.lt_of_not_le fun hle => by simp [kind_of_le hle] at hk
      simp [kind_setKind, hlt, hk, Kind.withName]
    · next hparameter hreference =>
      cases hk : t.kind m with
      | parameter old initial => exact absurd hk (hparameter old initial)
      | reference old => exact absurd hk (hreference old)
      | _ => rfl
  · rw [if_neg hmn, renameLocal]
    split <;> simp [kind_setKind, hmn]

theorem children_renameLocal (t : Tree) (n m : NodeId) (name : String) :
    (t.renameLocal n name).children m = t.children m := by
  unfold renameLocal
  split <;> simp

theorem WellFormed.renameLocal (ht : t.WellFormed) (n : NodeId) (name : String) :
    (t.renameLocal n name).WellFormed := by
  unfold Tree.renameLocal
  split
  · exact ht.setKind ..
  · exact ht.setKind ..
  · exact ht

/-- Gives a name to some nodes. -/
def renameAll (t : Tree) (ns : List NodeId) (name : String) : Tree :=
  ns.foldl (fun t n => t.renameLocal n name) t

/-- **Renaming** changes kinds, and nothing else. -/
theorem renameAll_spec (ht : t.WellFormed) (ns : List NodeId) (name : String) :
    (t.renameAll ns name).WellFormed ∧ ∀ m,
      (t.renameAll ns name).kind m = (if m ∈ ns then (t.kind m).withName name else t.kind m) ∧
        (t.renameAll ns name).children m = t.children m := by
  unfold renameAll
  induction ns generalizing t with
  | nil => exact ⟨ht, fun m => ⟨by simp, rfl⟩⟩
  | cons n ns ih =>
      obtain ⟨hwf, hnode⟩ := ih (ht.renameLocal n name)
      refine ⟨hwf, fun m => ⟨?_, (hnode m).2.trans (children_renameLocal ..)⟩⟩
      rw [List.foldl_cons, (hnode m).1, kind_renameLocal]
      by_cases hn : m = n <;> by_cases hns : m ∈ ns <;> simp [hn, hns]

/-! ## What is carried over -/

/-- Whether the parameters in a list and the statements of a block are carried over from one tree to
another, with all they consist of and the given kinds. -/
structure Carried (t : Tree) (list body : NodeId) (label : NodeId → Kind) (u : Tree) : Prop where
  wellFormed : u.WellFormed
  parameters : (t.children list).Sublist (u.children list)
  statements : (t.children body).Sublist (u.children body)
  kind_parameter : ∀ p ∈ t.children list, u.kind p = label p
  kind_eq : ∀ {n : NodeId}, t.Inside n body → u.kind n = label n
  children_eq : ∀ {n : NodeId}, t.Inside n body → u.children n = t.children n

namespace Carried

variable {label : NodeId → Kind}

theorem refl (ht : t.WellFormed) : t.Carried list body t.kind t :=
  ⟨ht, .refl _, .refl _, fun _ _ => rfl, fun _ => rfl, fun _ => rfl⟩

theorem renameAll (h : t.Carried list body label u) (ns : List NodeId) (name : String) :
    t.Carried list body (fun m => if m ∈ ns then (label m).withName name else label m)
      (u.renameAll ns name) := by
  obtain ⟨hwf, hnode⟩ := renameAll_spec h.wellFormed ns name
  refine ⟨hwf, ?_, ?_, fun p hp => ?_, fun hn => ?_, fun hn => ?_⟩
  · exact (hnode list).2 ▸ h.parameters
  · exact (hnode body).2 ▸ h.statements
  · rw [(hnode p).1, h.kind_parameter p hp]
  · rw [(hnode _).1, h.kind_eq hn]
  · rw [(hnode _).2, h.children_eq hn]

variable (h : t.Carried list body label u) (ht : t.WellFormed)

include h ht

/-- What is in the block hangs where it hung. -/
theorem parent_eq (hn : t.Inside n body) : u.parent n = t.parent n := by
  obtain ⟨p, hp, hpb⟩ := hn.exists_parent
  rw [hp, ← h.wellFormed.mem_children_iff]
  have hmem := ht.mem_children_iff.mpr hp
  rcases under_iff_eq_or_inside.mp hpb with rfl | hinside
  · exact h.statements.subset hmem
  · rwa [h.children_eq hinside]

theorem under_of_under {c : NodeId} (hc : t.Inside c body) (hn : t.Under n c) : u.Under n c := by
  induction hn using Relation.ReflTransGen.head_induction_on with
  | refl => exact .refl
  | @head n p hp hpc ih =>
      have hinside : t.Inside n body := .head' hp (hpc.trans hc.under)
      exact .head ((h.parent_eq ht hinside).trans hp) ih

/-- More is carried over when parameters and statements are kept. -/
theorem kept (hkept : u.Kept list body v)
    (hlist : (u.children list).Sublist (v.children list))
    (hbody : (u.children body).Sublist (v.children body)) : t.Carried list body label v := by
  have hsame {n : NodeId} (hn : t.Inside n body) :
      v.kind n = u.kind n ∧ v.children n = u.children n := by
    obtain ⟨c, hnc, hc⟩ := Relation.TransGen.tail'_iff.mp hn
    have hmem := ht.mem_children_iff.mpr hc
    exact hkept.statement c (h.statements.subset hmem) n
      (h.under_of_under ht (ht.inside_of_child hmem) hnc)
  exact ⟨hkept.wellFormed, h.parameters.trans hlist, h.statements.trans hbody,
    fun p hp => (hkept.parameter p (h.parameters.subset hp)).trans (h.kind_parameter p hp),
    fun hn => (hsame hn).1.trans (h.kind_eq hn),
    fun hn => (hsame hn).2.trans (h.children_eq hn)⟩

end Carried

theorem opensScope_of_isFunction (h : (t.kind n).isFunction = true) : t.opensScope n = true := by
  cases hk : t.kind n <;> simp_all [opensScope, Kind.isFunction]

/-- Where the way up from a node is the same in two trees, it lies under the same nodes. -/
theorem under_iff_of_parent_eq {x : NodeId} (h : ∀ a, t.Under x a → u.parent a = t.parent a)
    (c : NodeId) : u.Under x c ↔ t.Under x c := by
  constructor
  · intro hxc
    induction hxc with
    | refl => exact .refl
    | tail _ hac ih => exact .tail ih ((h _ ih).symm.trans hac)
  · intro hxc
    induction hxc with
    | refl => exact .refl
    | tail hxa hac ih => exact .tail ih ((h _ hxa).trans hac)

theorem inside_iff_of_parent_eq {x : NodeId} (h : ∀ a, t.Under x a → u.parent a = t.parent a)
    (c : NodeId) : u.Inside x c ↔ t.Inside x c := by
  have hparent := h x .refl
  refine Relation.TransGen.head'_iff.trans (Iff.trans ?_ Relation.TransGen.head'_iff.symm)
  refine exists_congr fun p => ?_
  rw [Hangs, hparent, ← Hangs]
  exact and_congr_right fun hp => under_iff_of_parent_eq (fun a ha => h a (.head hp ha)) c

namespace Carried

/-! ## What is left of it -/

section

variable {label : NodeId → Kind} {b : Builder} {call lambda : NodeId} {ns : List NodeId}
  {fw : Framework} (h : t.Carried list body label w) (ht : t.WellFormed)
  (hparts : b.Parts t list call lambda body) (hpruned : w.Pruned ns u)
  (hns : ∀ n ∈ ns, t.Stray body n)

include h ht hpruned

theorem parent_of_pruned (hn : t.Inside n body) {p : NodeId} (hp : u.parent n = some p) :
    t.parent n = some p :=
  (h.parent_eq ht hn).symm.trans (hpruned.parent_of_parent hp)

include hns

theorem children_of_pruned {p : NodeId} (hp : t.Inside p body)
    (hfree : ∀ n ∈ ns, t.parent n ≠ some p) : u.children p = t.children p := by
  refine (hpruned.children_eq fun n hn => ?_).trans (h.children_eq hp)
  rw [h.parent_eq ht (hns n hn).inside]
  exact hfree n hn

variable (hlabel : ∀ {n : NodeId}, t.Inside n body →
  label n = t.kind n ∨ ∃ old new, t.kind n = .reference old ∧ label n = .reference new)

include hlabel

/-- **A bare name stays bare.** Only from a selection with a receiver could one be taken out, and
then the selection is left with one child. -/
theorem qualifier?_eq_none (hbody : u.kind body = .block) {x : NodeId} (hx : t.Inside x body)
    (hq : ({ tree := t, framework := fw } : Source).qualifier? x = none) :
    ({ tree := u, framework := fw } : Source).qualifier? x = none := by
  by_contra hsome
  obtain ⟨r, hr⟩ := Option.ne_none_iff_exists'.mp hsome
  obtain ⟨p, hp, hk, hchildren⟩ := Source.qualifier?_eq_some_iff.mp hr
  have hparent := h.parent_of_pruned ht hpruned hx hp
  have hinside : t.Inside p body := by
    obtain ⟨q, hq, hqb⟩ := hx.exists_parent
    obtain rfl : p = q := Option.some.inj (hparent.symm.trans hq)
    refine (under_iff_eq_or_inside.mp hqb).resolve_left ?_
    rintro rfl
    simp [hbody] at hk
  have hselect : t.kind p = .select := by
    have hkind : label p = .select := by
      rw [← h.kind_eq hinside, ← hpruned.kind_eq, hk]
    rcases hlabel hinside with heq | ⟨-, new, -, hnew⟩
    · exact heq.symm.trans hkind
    · exact absurd (hkind.symm.trans hnew) (by simp)
  by_cases hfree : ∀ n ∈ ns, t.parent n ≠ some p
  · rw [h.children_of_pruned ht hpruned hns hinside hfree] at hchildren
    rw [Source.qualifier?_eq_some_iff.mpr ⟨p, hparent, hselect, hchildren⟩] at hq
    cases hq
  · push Not at hfree
    obtain ⟨n, hn, hnp⟩ := hfree
    obtain ⟨m, ho⟩ := (hns n hn).receiver hnp hselect
    have hsub := hpruned.children_sublist p
    rw [h.children_eq hinside, children_of_operands? ho, hchildren] at hsub
    obtain ⟨rfl, -⟩ := List.cons.inj (hsub.eq_of_length rfl)
    exact hpruned.not_mem_children r hn p (by simp [hchildren])

/-- **A function in the block keeps its parameters.** Nothing is taken out of it. -/
theorem parameters_of_function {c : NodeId} (hc : t.Inside c body)
    (hk : (t.kind c).isFunction = true) :
    u.parameters c = t.parameters c ∧ ∀ q ∈ t.parameters c, u.name? q = t.name? q := by
  have hsame {p : NodeId} (hp : t.Under p c) : u.children p = t.children p := by
    refine h.children_of_pruned ht hpruned hns (Relation.TransGen.trans_right hp hc) ?_
    intro n hn hnp
    have hopen := (hns n hn).scope.opensScope_eq ht (.head' hnp hp) hc.under
    rw [opensScope_of_isFunction hk] at hopen
    cases hopen
  have hkind {n : NodeId} (hn : t.Inside n body) :
      u.kind n = t.kind n ∨ ∃ old new, t.kind n = .reference old ∧ u.kind n = .reference new := by
    rw [hpruned.kind_eq, h.kind_eq hn]
    exact hlabel hn
  have hself : u.kind c = t.kind c := by
    refine (hkind hc).resolve_right ?_
    rintro ⟨old, -, hold, -⟩
    simp [hold, Kind.isFunction] at hk
  have hlist : u.parameterList? c = t.parameterList? c := by
    rw [parameterList?, parameterList?, hself, child?, child?, hsame .refl]
    congr 1
    refine List.find?_congr fun d hd => ?_
    rcases hkind ((ht.inside_of_child hd).trans hc) with heq | ⟨old, new, hold, hnew⟩
    · rw [heq]
    · rw [hold, hnew]
      rfl
  unfold Tree.parameters
  rw [hlist]
  cases hl : t.parameterList? c with
  | none => simp
  | some l =>
      have hmem : l ∈ t.children c :=
        List.mem_of_find?_eq_some (Option.ite_none_right_eq_some.mp hl).2
      have hinside {q : NodeId} (hq : q ∈ t.children l) : t.Inside q body :=
        (ht.inside_of_child hq).trans ((ht.inside_of_child hmem).trans hc)
      refine ⟨?_, fun q hq => ?_⟩
      · simp only [hsame (ht.inside_of_child hmem).under]
        refine List.filter_congr fun q hq => ?_
        rcases hkind (hinside hq) with heq | ⟨old, new, hold, hnew⟩
        · rw [heq]
        · rw [hold, hnew]
          rfl
      · obtain ⟨hq, hparameter⟩ := List.mem_filter.mp hq
        rcases hkind (hinside hq) with heq | ⟨old, -, hold, -⟩
        · rw [name?, heq, name?]
        · simp [hold, Kind.isParameter] at hparameter

/-- **The scopes in the block take the names that they took.** -/
theorem passes_iff {c : NodeId} (hc : t.Inside c body) :
    ({ tree := u, framework := fw } : Source).Passes name c ↔
      ({ tree := t, framework := fw } : Source).Passes name c := by
  have hkind : u.kind c = label c := (hpruned.kind_eq c).trans (h.kind_eq hc)
  unfold Source.Passes
  rcases hlabel hc with heq | ⟨old, new, hold, hnew⟩
  · rw [hkind, heq]
    refine and_congr_right fun _ => imp_congr_right fun hf => ?_
    obtain ⟨hparameters, hnames⟩ := h.parameters_of_function ht hpruned hns hlabel hc hf
    rw [hparameters]
    exact forall₂_congr fun q hq => by rw [hnames q hq]
  · simp [hkind, hnew, hold, Kind.isFile, Kind.isFunction]

omit hlabel

include hparts

theorem children_list_of_pruned : u.children list = w.children list := by
  refine hpruned.children_eq fun n hn hparent => ?_
  rw [h.parent_eq ht (hns n hn).inside] at hparent
  obtain ⟨p, hp, hpb⟩ := (hns n hn).inside.exists_parent
  obtain rfl : list = p := Option.some.inj (hparent.symm.trans hp)
  exact hparts.list_not_under_body ht hpb

omit hns

/-- **The way up from a name** that is still in the file is the way it was. -/
theorem parent_eq_of_attached (hedited : t.Edited [list, body] u) {x a : NodeId}
    (hx : t.Inside x body) (hattached : u.attached x = true) (ha : t.Under x a) :
    u.parent a = t.parent a := by
  have hbody : t.Under body t.root :=
    (hparts.body_inside_function ht).under.trans (hparts.root_above ht)
  rw [hedited.wellFormed.attached_iff, hedited.root_eq] at hattached
  -- a node in the block that the name lies under still hangs somewhere
  have hstep {c : NodeId} (hxc : t.Under x c) (huc : u.Under x c) : u.parent c = t.parent c := by
    rcases under_total hxc hx.under with hcb | hbc
    · rcases under_iff_eq_or_inside.mp hcb with rfl | hinside
      · exact hedited.parent_eq (hparts.not_loose_of_above ht .refl)
      · have hroot : u.Under c t.root := by
          refine (under_total huc hattached).resolve_right fun hrc => ?_
          rw [hedited.under_iff ht (hparts.not_loose_root ht)] at hrc
          exact ht.acyclic c (Relation.TransGen.trans_left hinside (hbody.trans hrc))
        rcases Relation.ReflTransGen.cases_head hroot with rfl | ⟨p, hp, -⟩
        · exact absurd hinside (ht.not_inside_of_under hbody)
        · exact Eq.trans hp (h.parent_of_pruned ht hpruned hinside hp).symm
    · exact hedited.parent_eq (hparts.not_loose_of_above ht hbc)
  have hway : ∀ c, t.Under x c → u.Under x c := by
    intro c hxc
    induction hxc with
    | refl => exact .refl
    | tail hxc hcd ih => exact .tail ih ((hstep hxc ih).trans hcd)
  exact hstep ha (hway a ha)

end

end Carried

end Tree

end ComponentAudit
