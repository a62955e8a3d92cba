import ComponentAudit.Proofs.Edit.Carried
import ComponentAudit.Proofs.Edit.Transaction
import ComponentAudit.Proofs.Tree.Histories

set_option autoImplicit false

/-! # The limits of a plan

A plan is checked once, against the tree that it starts from, and then its edits are made one after
the other. So an edit may meet nodes that have been taken out, anchors that are elsewhere by now, or
anchors that the plan itself has inserted. Whatever it meets, it changes little of what was there at
first: new nodes come in between (`Tree.Agrees`), and nodes are taken out, but those that stay keep
their parents and their order (`Tree.Framed`).

Main statement: `Plan.apply_frame`. Its step is `Tree.Framed.step`, for every edit on every tree.
-/

namespace ComponentAudit

namespace Tree

/-! ## New nodes -/

/-- Whether two trees agree on the first `k` nodes. Among children, nodes that come later do not
count. -/
structure Agrees (k : Nat) (u v : Tree) : Prop where
  size_le : u.size ≤ v.size
  kind_eq : ∀ {n : NodeId}, n < k → v.kind n = u.kind n
  parent_eq : ∀ {n : NodeId}, n < k → v.parent n = u.parent n
  children_eq : ∀ n, (v.children n).filter (· < k) = (u.children n).filter (· < k)

namespace Agrees

variable {k : Nat} {u v w : Tree} {n : NodeId}

theorem refl (k : Nat) (u : Tree) : u.Agrees k u :=
  ⟨Nat.le_refl _, fun _ => rfl, fun _ => rfl, fun _ => rfl⟩

theorem trans (h : u.Agrees k v) (h' : v.Agrees k w) : u.Agrees k w where
  size_le := Nat.le_trans h.size_le h'.size_le
  kind_eq hn := (h'.kind_eq hn).trans (h.kind_eq hn)
  parent_eq hn := (h'.parent_eq hn).trans (h.parent_eq hn)
  children_eq n := (h'.children_eq n).trans (h.children_eq n)

theorem push (hk : k ≤ u.size) (kind : Kind) : u.Agrees k (u.push kind) where
  size_le := by simp
  kind_eq hn := by rw [kind_push, if_neg (Nat.ne_of_lt (Nat.lt_of_lt_of_le hn hk))]
  parent_eq _ := parent_push ..
  children_eq _ := by rw [children_push]

/-- Taking out a later node. -/
theorem detach (hn : k ≤ n) : u.Agrees k (u.detach n) where
  size_le := by simp
  kind_eq _ := kind_detach ..
  parent_eq hm := by rw [parent_detach, if_neg (Nat.ne_of_lt (Nat.lt_of_lt_of_le hm hn))]
  children_eq m := by
    rw [children_detach]
    split
    · rw [List.filter_filter]
      refine List.filter_congr fun c _ => ?_
      by_cases hc : c < k
      · simp [hc, Nat.ne_of_lt (Nat.lt_of_lt_of_le hc hn)]
      · simp [hc]
    · rfl

/-- Hanging a later node anywhere, wherever it was. -/
theorem hang (hn : k ≤ n) (hsize : v.size = u.size) (hkind : ∀ m, v.kind m = u.kind m)
    (hparent : ∀ m, m ≠ n → v.parent m = u.parent m)
    (hchildren : ∀ m, (v.children m).filter (· < k) = ((u.detach n).children m).filter (· < k)) :
    u.Agrees k v where
  size_le := Nat.le_of_eq hsize.symm
  kind_eq _ := hkind _
  parent_eq hm := hparent _ (Nat.ne_of_lt (Nat.lt_of_lt_of_le hm hn))
  children_eq m := (hchildren m).trans ((detach hn).children_eq m)

theorem insertChild (hn : k ≤ n) (p : NodeId) (i : Nat) : u.Agrees k (u.insertChild p i n) := by
  refine hang hn (by simp) (fun _ => kind_insertChild ..) (fun m hm => ?_) fun m => ?_
  · rw [Tree.insertChild, parent_modifyChildren, parent_setParent, if_neg fun h => hm h.1,
      parent_detach, if_neg hm]
  · rw [children_insertChild]
    split
    · rw [List.filter_append, List.filter_cons_of_neg (by simpa using hn), ← List.filter_append,
        List.take_append_drop]
    · rfl

theorem appendChild (hn : k ≤ n) (p : NodeId) : u.Agrees k (u.appendChild p n) := by
  refine hang hn (by simp) (fun _ => kind_appendChild ..) (fun m hm => ?_) fun m => ?_
  · rw [Tree.appendChild, parent_modifyChildren, parent_setParent, if_neg fun h => hm h.1,
      parent_detach, if_neg hm]
  · rw [children_appendChild]
    split
    · rw [List.filter_append, List.filter_cons_of_neg (by simpa using hn), List.filter_nil,
        List.append_nil]
    · rfl

theorem insertAfter (hn : k ≤ n) (anchor : NodeId) : u.Agrees k (u.insertAfter anchor n).2 := by
  rcases u.insertBeside_cases anchor n 1 with h | h | ⟨p, i, -, -, h⟩
  · exact (congrArg (u.Agrees k) h).mpr (refl k u)
  · exact (congrArg (u.Agrees k) h).mpr (detach hn)
  · exact (congrArg (u.Agrees k) h).mpr ((detach hn).trans (insertChild hn p i))

theorem insertUnder (hn : k ≤ n) (p : NodeId) (anchor : Option NodeId) :
    u.Agrees k (u.insertUnder p anchor n) := by
  unfold Tree.insertUnder
  split
  · exact insertAfter hn _
  · exact insertChild hn p 0

theorem leaf (hk : k ≤ u.size) (kind : Kind) :
    k ≤ ((Draft.leaf kind).run u).1 ∧ u.Agrees k ((Draft.leaf kind).run u).2 :=
  ⟨hk, push hk kind⟩

theorem branch (hk : k ≤ u.size) (kind : Kind) {ids : List NodeId} (hids : ∀ n ∈ ids, k ≤ n) :
    k ≤ ((Draft.branch kind ids).run u).1 ∧ u.Agrees k ((Draft.branch kind ids).run u).2 := by
  have hadopt (v : Tree) (p : NodeId) : v.Agrees k (ids.foldl (·.appendChild p) v) := by
    induction ids generalizing v with
    | nil => exact refl k v
    | cons n ids ih =>
        rw [List.forall_mem_cons] at hids
        exact (appendChild hids.1 p).trans (ih hids.2 _)
  exact ⟨hk, (push hk kind).trans (hadopt _ _)⟩

theorem parameter (hk : k ≤ u.size) (name : String) (type : Option TypeExpr)
    (initial : Option String) : k ≤ ((Draft.parameter name type initial).run u).1 ∧
      u.Agrees k ((Draft.parameter name type initial).run u).2 := by
  have hleaf := push hk (.parameter name initial)
  cases type with
  | none => exact ⟨hk, hleaf⟩
  | some type =>
      have hsize := Nat.le_trans hk hleaf.size_le
      exact ⟨hk, (hleaf.trans (push hsize (.typeRef type))).trans (appendChild hsize u.size)⟩

theorem assignMember (hk : k ≤ u.size) (receiver field value : String) :
    k ≤ ((Draft.assignMember receiver field value).run u).1 ∧
      u.Agrees k ((Draft.assignMember receiver field value).run u).2 := by
  simp only [Draft.assignMember, Draft.run_bind, Draft.reference, Draft.select, Draft.assign]
  obtain ⟨hid₁, h₁⟩ := leaf hk (.reference receiver)
  generalize (Draft.leaf (.reference receiver)).run u = p₁ at hid₁ h₁ ⊢
  obtain ⟨hid₂, h₂⟩ := leaf (Nat.le_trans hk h₁.size_le) (.reference field)
  generalize (Draft.leaf (.reference field)).run p₁.2 = p₂ at hid₂ h₂ ⊢
  have h₂ := h₁.trans h₂
  obtain ⟨hid₃, h₃⟩ := branch (Nat.le_trans hk h₂.size_le) .select
    (List.forall_mem_cons.mpr ⟨hid₁, List.forall_mem_singleton.mpr hid₂⟩)
  generalize (Draft.branch .select [p₁.1, p₂.1]).run p₂.2 = p₃ at hid₃ h₃ ⊢
  have h₃ := h₂.trans h₃
  obtain ⟨hid₄, h₄⟩ := leaf (Nat.le_trans hk h₃.size_le) (.reference value)
  generalize (Draft.leaf (.reference value)).run p₃.2 = p₄ at hid₄ h₄ ⊢
  have h₄ := h₃.trans h₄
  obtain ⟨hid₅, h₅⟩ := branch (Nat.le_trans hk h₄.size_le) .assign
    (List.forall_mem_cons.mpr ⟨hid₃, List.forall_mem_singleton.mpr hid₄⟩)
  exact ⟨hid₅, h₄.trans h₅⟩

end Agrees

end Tree

/-! ## What edits drop -/

namespace Edit

/-- The nodes that an edit takes out of a tree: the target of a removal, and the blank right after a
statement that is removed. -/
def drops (u : Tree) : Edit → List NodeId
  | dropStatement n => ((u.next? n).filter fun c => (u.kind c).isBlank).toList ++ [n]
  | dropParameter n => [n]
  | retype .. | addParameter .. | addAssignment .. | rename .. => []

/-- What edits that insert do to the nodes there were. -/
theorem agrees_step {k : Nat} {u : Tree} (hk : k ≤ u.size) (created : List NodeId) {e : Edit}
    (he : e.inserts = true) : u.Agrees k (step (created, u) e).2 := by
  cases e with
  | addParameter list after name type =>
      obtain ⟨hid, h⟩ := Tree.Agrees.parameter hk name type none
      exact h.trans (.insertUnder hid list _)
  | addAssignment block after receiver field =>
      obtain ⟨hid, h⟩ := Tree.Agrees.assignMember hk receiver field field
      simp only [step, perform, Draft.run_bind, Draft.run_modify, Draft.newline, Draft.blank]
      generalize (Draft.assignMember receiver field field).run u = made at hid h ⊢
      have hv := h.trans (.insertUnder hid block (after.bind (·.node? created)))
      generalize made.2.insertUnder block (after.bind (·.node? created)) made.1 = v at hv ⊢
      have hsize := Nat.le_trans hk hv.size_le
      exact hv.trans ((Tree.Agrees.push hsize _).trans (.insertAfter hsize made.1))
  | retype _ _ | dropStatement _ | dropParameter _ | rename _ _ => cases he

end Edit

namespace Plan

/-- Whether a plan takes a node out: one of its edits does, on the tree that the edits before it
have left. -/
def Drops (p : Plan) (t : Tree) (c : NodeId) : Prop :=
  ∃ before e after, p = before ++ e :: after ∧ c ∈ Edit.drops (Edit.outcome t before).2 e

/-- Whether a node is a type reference that a plan changes: it is the first one on the target of a
change of type, on the tree that the edits before have left. It was so from the beginning, but for
others in front of it that these edits take out. -/
def Retypes (p : Plan) (t : Tree) (c : NodeId) : Prop :=
  ∃ before parameter type after, p = before ++ .retype parameter type :: after ∧
    (Edit.outcome t before).2.typeRef? parameter = some c ∧
    ∃ front rest, t.children parameter = front ++ c :: rest ∧ (t.kind c).isTypeRef = true ∧
      ∀ d ∈ front, (t.kind d).isTypeRef = true → Plan.Drops before t d

variable {t : Tree} {p : Plan}

theorem drops_concat_iff {e : Edit} {c : NodeId} :
    Plan.Drops (p ++ [e]) t c ↔ p.Drops t c ∨ c ∈ e.drops (Edit.outcome t p).2 := by
  constructor
  · rintro ⟨before, e', after, heq, hc⟩
    rcases List.eq_nil_or_concat after with rfl | ⟨after, e'', rfl⟩
    · obtain ⟨rfl, he⟩ := List.append_inj' heq rfl
      obtain rfl := List.singleton_inj.mp he
      exact .inr hc
    · have heq : p ++ [e] = (before ++ e' :: after) ++ [e''] := by rw [heq]; simp
      exact .inl ⟨before, e', after, (List.append_inj' heq rfl).1, hc⟩
  · rintro (⟨before, e', after, rfl, hc⟩ | hc)
    · exact ⟨before, e', after ++ [e], by simp, hc⟩
    · exact ⟨p, e, [], rfl, hc⟩

end Plan

/-! ## Steps -/

namespace Tree

/-- Whether a tree is another one with some nodes taken out and with new nodes: those that were
there and stay have the same parents, and stand in the same order. -/
structure Framed (t : Tree) (dropped : List NodeId) (u : Tree) : Prop where
  size_le : t.size ≤ u.size
  parent_eq : ∀ {n : NodeId}, n < t.size →
    u.parent n = if n ∈ dropped then none else t.parent n
  children_eq : ∀ n,
    (u.children n).filter (· < t.size) = (t.children n).filter (· ∉ dropped)

namespace Framed

variable {t u v : Tree} {dropped : List NodeId}

theorem refl (hl : t.Linked) : t.Framed [] t where
  size_le := Nat.le_refl _
  parent_eq _ := by simp
  children_eq _ := by
    refine List.filter_congr fun c hc => ?_
    simp [lt_size_of_parent (hl.mem_children_iff.mp hc)]

theorem agrees (h : t.Framed dropped u) (hv : u.Agrees t.size v) : t.Framed dropped v where
  size_le := Nat.le_trans h.size_le hv.size_le
  parent_eq hn := (hv.parent_eq hn).trans (h.parent_eq hn)
  children_eq n := (hv.children_eq n).trans (h.children_eq n)

/-- Kinds do not matter. -/
theorem of_links (h : t.Framed dropped u) (hsize : v.size = u.size)
    (hparent : ∀ n, v.parent n = u.parent n) (hchildren : ∀ n, v.children n = u.children n) :
    t.Framed dropped v where
  size_le := by rw [hsize]; exact h.size_le
  parent_eq hn := (hparent _).trans (h.parent_eq hn)
  children_eq n := by rw [hchildren]; exact h.children_eq n

/-- Taking out one more node, old or new, hanging somewhere or not. -/
theorem detach (hl : t.Linked) (h : t.Framed dropped u) (n : NodeId) :
    t.Framed (dropped ++ [n]) (u.detach n) where
  size_le := by simpa using h.size_le
  parent_eq {m} hm := by
    rw [parent_detach, h.parent_eq hm]
    by_cases hmn : m = n <;> by_cases hd : m ∈ dropped <;> simp [hmn, hd]
  children_eq m := by
    rw [children_detach]
    split
    · calc ((u.children m).filter (· != n)).filter (· < t.size)
          = ((u.children m).filter (· < t.size)).filter (· != n) := List.filter_comm ..
        _ = ((t.children m).filter (· ∉ dropped)).filter (· != n) := by rw [h.children_eq m]
        _ = (t.children m).filter (· ∉ dropped ++ [n]) := by
            rw [List.filter_filter]
            refine List.filter_congr fun c _ => ?_
            by_cases hc : c = n <;> by_cases hd : c ∈ dropped <;> simp [hc, hd]
    · next hparent =>
      -- a node that hangs elsewhere is not among the children, unless it has been dropped before
      rw [h.children_eq m]
      refine List.filter_congr fun c hc => ?_
      by_cases hcn : c = n
      · have hdropped : c ∈ dropped := by
          by_contra hnot
          have hpc := hl.mem_children_iff.mp hc
          rw [← hcn, h.parent_eq (lt_size_of_parent hpc), if_neg hnot] at hparent
          exact hparent hpc
        simp [hdropped]
      · simp [hcn]

/-- **One edit.** -/
theorem step (hl : t.Linked) (h : t.Framed dropped u) (created : List NodeId) (e : Edit) :
    t.Framed (dropped ++ e.drops u) (Edit.step (created, u) e).2 := by
  cases e with
  | retype p type =>
      rw [show Edit.drops u (.retype p type) = [] from rfl, List.append_nil]
      show t.Framed dropped (u.setWrittenType p type)
      unfold setWrittenType
      split
      · exact h.of_links (size_setKind ..) (fun _ => parent_setKind ..) fun _ => children_setKind ..
      · exact h.agrees ((Agrees.push h.size_le _).trans (.appendChild h.size_le p))
  | addParameter _ _ _ _ | addAssignment _ _ _ _ =>
      rw [Edit.drops, List.append_nil]
      exact h.agrees (Edit.agrees_step h.size_le created rfl)
  | dropStatement n =>
      show t.Framed _ (u.dropStatement n)
      rw [Edit.drops, dropStatement]
      cases (u.next? n).filter fun c => (u.kind c).isBlank with
      | none => exact h.detach hl n
      | some blank =>
          have hboth := (h.detach hl blank).detach hl n
          rwa [List.append_assoc] at hboth
  | dropParameter n => exact h.detach hl n
  | rename n name =>
      rw [Edit.drops, List.append_nil]
      show t.Framed dropped (u.renameLocal n name)
      unfold renameLocal
      split
      · exact h.of_links (size_setKind ..) (fun _ => parent_setKind ..) fun _ => children_setKind ..
      · exact h.of_links (size_setKind ..) (fun _ => parent_setKind ..) fun _ => children_setKind ..
      · exact h

end Framed

end Tree

namespace Edit

variable {u : Tree}

/-- The kinds that an edit changes. -/
theorem kind_step (created : List NodeId) (e : Edit) {n : NodeId} (hn : n < u.size) :
    (step (created, u) e).2.kind n = u.kind n ∨
      (∃ name, e = .rename n name ∧
        (step (created, u) e).2.kind n = (u.kind n).withName name) ∨
      ∃ p type, e = .retype p type ∧ u.typeRef? p = some n ∧
        (step (created, u) e).2.kind n = .typeRef type := by
  cases e with
  | retype p type =>
      show (u.setWrittenType p type).kind n = u.kind n ∨ _ ∨
        ∃ p' type', _ ∧ _ ∧ (u.setWrittenType p type).kind n = _
      unfold Tree.setWrittenType
      cases href : u.typeRef? p with
      | none => exact .inl (((Tree.Agrees.push (Nat.le_refl _) _).trans
          (.appendChild (Nat.le_refl _) p)).kind_eq hn)
      | some ref =>
          by_cases hne : n = ref
          · subst hne
            exact .inr (.inr ⟨p, type, rfl, href, by simp [Tree.kind_setKind, hn]⟩)
          · exact .inl (by simp [Tree.kind_setKind, hne])
  | addParameter _ _ _ _ => exact .inl ((agrees_step (Nat.le_refl _) created rfl).kind_eq hn)
  | addAssignment _ _ _ _ => exact .inl ((agrees_step (Nat.le_refl _) created rfl).kind_eq hn)
  | dropStatement m =>
      left
      show (u.dropStatement m).kind n = u.kind n
      unfold Tree.dropStatement
      split <;> simp
  | dropParameter m => exact .inl (Tree.kind_detach ..)
  | rename m name =>
      have hkind : (step (created, u) (.rename m name)).2.kind n =
          if n = m then (u.kind n).withName name else u.kind n := Tree.kind_renameLocal ..
      by_cases hnm : n = m
      · subst hnm
        exact .inr (.inl ⟨name, rfl, by rw [hkind, if_pos rfl]⟩)
      · exact .inl (by rw [hkind, if_neg hnm])

end Edit

theorem Kind.isTypeRef_withName (k : Kind) (name : String) :
    (k.withName name).isTypeRef = k.isTypeRef := by
  cases k <;> rfl

/-- Type references stay type references, and nothing becomes one. -/
theorem Edit.isTypeRef_step {u : Tree} (created : List NodeId) (e : Edit) {n : NodeId}
    (hn : n < u.size) : ((step (created, u) e).2.kind n).isTypeRef = (u.kind n).isTypeRef := by
  rcases kind_step created e hn with h | ⟨name, -, h⟩ | ⟨p, type, -, href, h⟩
  · rw [h]
  · rw [h, Kind.isTypeRef_withName]
  · rw [h, List.find?_some href]
    rfl

/-! ## Whole plans -/

namespace Plan

variable {t : Tree}

/-- **All edits of a plan**, one after the other. -/
theorem exists_framed (hl : t.Linked) (p : Plan) : ∃ dropped : List NodeId,
    (∀ c, c ∈ dropped ↔ p.Drops t c) ∧ t.Framed dropped (Edit.outcome t p).2 := by
  induction p using List.reverseRecOn with
  | nil =>
      refine ⟨[], fun c => ?_, .refl hl⟩
      constructor
      · intro hc
        cases hc
      · rintro ⟨before, e, after, heq, -⟩
        cases before <;> cases heq
  | append_singleton p e ih =>
      obtain ⟨dropped, hdropped, hframed⟩ := ih
      rw [Edit.outcome_concat]
      refine ⟨dropped ++ e.drops (Edit.outcome t p).2, fun c => ?_, hframed.step hl _ e⟩
      rw [List.mem_append, hdropped, drops_concat_iff]

theorem isTypeRef_outcome (hl : t.Linked) (p : Plan) {n : NodeId} (hn : n < t.size) :
    ((Edit.outcome t p).2.kind n).isTypeRef = (t.kind n).isTypeRef := by
  induction p using List.reverseRecOn with
  | nil => rfl
  | append_singleton p e ih =>
      obtain ⟨_, -, hframed⟩ := exists_framed hl p
      rw [Edit.outcome_concat, ← ih]
      exact Edit.isTypeRef_step _ e (Nat.lt_of_lt_of_le hn hframed.size_le)

/-- The first type reference on a node after some edits, if it was there before, stood behind none
but those that have been dropped. -/
theorem front_of_typeRef? (hl : t.Linked) {p : Plan} {n c : NodeId} (hc : c < t.size)
    (href : (Edit.outcome t p).2.typeRef? n = some c) :
    ∃ front rest, t.children n = front ++ c :: rest ∧ (t.kind c).isTypeRef = true ∧
      ∀ d ∈ front, (t.kind d).isTypeRef = true → p.Drops t d := by
  obtain ⟨dropped, hdropped, hframed⟩ := exists_framed hl p
  generalize hu : (Edit.outcome t p).2 = u at href hframed
  have hkind {d : NodeId} (hd : d < t.size) : (u.kind d).isTypeRef = (t.kind d).isTypeRef := by
    rw [← hu]
    exact isTypeRef_outcome hl p hd
  obtain ⟨hself, before, after, hchildren, hbefore⟩ := List.find?_eq_some_iff_append.mp href
  -- what stood before it and has not been dropped stands before it still
  have hstays : (t.children n).filter (· ∉ dropped)
      = before.filter (· < t.size) ++ c :: after.filter (· < t.size) := by
    rw [← hframed.children_eq n, hchildren, List.filter_append,
      List.filter_cons_of_pos (by simpa using hc)]
  obtain ⟨kept, others, hsplit, hkept, hothers⟩ := List.filter_eq_append_iff.mp hstays
  obtain ⟨gone, rest, rfl, hgone, -, -⟩ := List.filter_eq_cons_iff.mp hothers
  refine ⟨kept ++ gone, rest, by rw [hsplit, List.append_assoc],
    by rw [← hkind hc]; exact hself, ?_⟩
  intro d hd href'
  rw [← hdropped]
  by_contra hnot
  rcases List.mem_append.mp hd with hd | hd
  · have hmem : d ∈ before.filter (· < t.size) := by
      rw [← hkept]
      exact List.mem_filter.mpr ⟨hd, by simpa using hnot⟩
    obtain ⟨hd, hlt⟩ := List.mem_filter.mp hmem
    have := hbefore d hd
    rw [hkind (by simpa using hlt), href'] at this
    cases this
  · exact hgone d hd (by simpa using hnot)

theorem Retypes.append {p : Plan} {c : NodeId} (h : p.Retypes t c) (es : List Edit) :
    Plan.Retypes (p ++ es) t c := by
  obtain ⟨before, parameter, type, after, rfl, h⟩ := h
  exact ⟨before, parameter, type, after ++ es, by simp, h⟩

/-- The kinds that a plan changes. -/
theorem kind_outcome (hl : t.Linked) (p : Plan) {n : NodeId} (hn : n < t.size) :
    (Edit.outcome t p).2.kind n = t.kind n ∨ (∃ name, .rename n name ∈ p) ∨ p.Retypes t n := by
  induction p using List.reverseRecOn with
  | nil => exact .inl rfl
  | append_singleton p e ih =>
      obtain ⟨_, -, hframed⟩ := exists_framed hl p
      rw [Edit.outcome_concat]
      rcases Edit.kind_step (Edit.outcome t p).1 e (Nat.lt_of_lt_of_le hn hframed.size_le) with
        h | ⟨name, rfl, -⟩ | ⟨parameter, type, rfl, href, -⟩
      · rw [h]
        rcases ih with ih | ⟨name, hname⟩ | ih
        · exact .inl ih
        · exact .inr (.inl ⟨name, List.mem_append_left _ hname⟩)
        · exact .inr (.inr (ih.append [e]))
      · exact .inr (.inl ⟨name, by simp⟩)
      · exact .inr (.inr ⟨p, parameter, type, [], rfl, href, front_of_typeRef? hl hn href⟩)

/-- A plan that is made is made edit by edit. -/
theorem eq_of_run_apply {p : Plan} {n : Nat} {u : Tree}
    (h : Change.run p.apply t = (.ok n, u)) : n = p.length ∧ u = (Edit.outcome t p).2 := by
  unfold apply at h
  rw [Change.run_bind_ok (Change.run_get t)] at h
  cases hcheck : p.check t with
  | error e =>
      rw [Change.run_bind_error (by rw [Change.run_liftExcept, hcheck])] at h
      cases h
  | ok _ =>
      rw [Change.run_bind_ok (by rw [Change.run_liftExcept, hcheck])] at h
      obtain ⟨hn, hu⟩ := Prod.mk.inj h
      refine ⟨(Except.ok.inj hn).symm, hu.symm.trans ?_⟩
      exact Edit.performAll_eq p ([], t)

/-- **What a plan changes.** A plan that is made counts its edits. Of the nodes there were before,
those that it drops hang nowhere afterwards, and the others hang where they did and in the same
order, whatever comes in between. A node is another one than before only if it is renamed, or if it
is the type reference on the target of a change of type. -/
theorem apply_frame (ht : t.WellFormed) {p : Plan} {n : Nat} {u : Tree}
    (h : Change.run p.apply t = (.ok n, u)) :
    n = p.length ∧ ∀ x < t.size,
      ((u.children x).filter (· < t.size)).Sublist (t.children x) ∧
      (∀ c ∈ t.children x, c ∈ u.children x ↔ ¬ p.Drops t c) ∧
      (p.Drops t x ∧ u.parent x = none ∨ ¬ p.Drops t x ∧ u.parent x = t.parent x) ∧
      (u.kind x = t.kind x ∨ (∃ name, .rename x name ∈ p) ∨ p.Retypes t x) := by
  obtain ⟨hn, rfl⟩ := eq_of_run_apply h
  obtain ⟨dropped, hdropped, hframed⟩ := exists_framed ht.linked p
  refine ⟨hn, fun x hx => ⟨?_, ?_, ?_, kind_outcome ht.linked p hx⟩⟩
  · rw [hframed.children_eq x]
    exact List.filter_sublist
  · intro c hc
    have hlt : c < t.size := Tree.lt_size_of_parent (ht.mem_children_iff.mp hc)
    calc c ∈ (Edit.outcome t p).2.children x
        ↔ c ∈ ((Edit.outcome t p).2.children x).filter (· < t.size) := by simp [hlt]
      _ ↔ c ∉ dropped := by simp [hframed.children_eq x, hc]
      _ ↔ ¬ p.Drops t c := by rw [hdropped]
  · rw [← hdropped, hframed.parent_eq hx]
    by_cases hd : x ∈ dropped <;> simp [hd]

/-- A function whose parameter has two types written on it, with the names `a` and `b` for
statements and a blank between them. -/
def twiceTyped : Draft NodeId := do
  let x ← Draft.parameter "x" (some (.simple "Int")) none
  let type ← Draft.typeRef (.simple "String")
  Draft.adopt x [type]
  let a ← Draft.reference "a"
  let blank ← Draft.newline
  let b ← Draft.reference "b"
  let body ← Draft.block [a, blank, b]
  let function ← Draft.function { name := some "f" } [x] body
  Draft.declare function

/-- Each edit meets what those before it have left: the first statement is gone when another one is
to come after it, the anchor for a parameter is that statement, and the first written type is gone
when the type is changed, so that the second one is. -/
theorem apply_frame_twiceTyped :
    let t := (twiceTyped.run (Tree.ofFile "F")).2
    let p : Plan :=
      [.dropStatement 4, .addAssignment 7 (some (.existing 4)) "r" "f",
        .addParameter 8 (some (.pending 0)) "y" none, .dropParameter 2,
        .retype 1 (.simple "Long"), .rename 6 "c"]
    t.WellFormed ∧ t.children 7 = [4, 5, 6] ∧ t.children 1 = [2, 3] ∧
      ∃ u, Change.run p.apply t = (.ok p.length, u) ∧
        u.children 7 = [14, 15, 6] ∧ ((u.children 7).filter (· < t.size)).Sublist [4, 5, 6] ∧
        u.children 8 = [16, 1] ∧ p.Drops t 4 ∧ p.Drops t 5 ∧ ¬ p.Drops t 6 ∧
        u.kind 3 = .typeRef (.simple "Long") ∧ p.Retypes t 3 := by
  intro t p
  have hfacts : t.WellFormed ∧ t.children 7 = [4, 5, 6] ∧ t.children 1 = [2, 3] ∧ t.size = 10 ∧
      (∀ x ∈ [4, 5, 6], t.parent x = some 7) ∧ t.kind 3 = .typeRef (.simple "String") ∧
      (Change.run p.apply t).1 = .ok 6 := by decide +kernel
  have hmade : (Change.run p.apply t).2.children 7 = [14, 15, 6] ∧
      (Change.run p.apply t).2.children 8 = [16, 1] ∧ (Change.run p.apply t).2.parent 4 = none ∧
      (Change.run p.apply t).2.parent 5 = none ∧ (Change.run p.apply t).2.parent 6 = some 7 ∧
      (Change.run p.apply t).2.kind 3 = .typeRef (.simple "Long") := by decide +kernel
  obtain ⟨ht, hbody, hparameter, hsize, hparent, hstring, hrun⟩ := hfacts
  rcases happly : Change.run p.apply t with ⟨r, u⟩
  rw [happly] at hrun hmade
  obtain rfl : r = .ok 6 := hrun
  obtain ⟨hnew, hlist, hfour, hfive, hsix, hlong⟩ := hmade
  obtain ⟨-, hframe⟩ := apply_frame ht happly
  have hdrops {x : NodeId} (hx : x < t.size) (hbefore : t.parent x = some 7)
      (hafter : u.parent x = none) : p.Drops t x := by
    rcases (hframe x hx).2.2.1 with ⟨h, -⟩ | ⟨-, h⟩
    · exact h
    · rw [hbefore, hafter] at h
      cases h
  have hkeeps : ¬ p.Drops t 6 := by
    rcases (hframe 6 (by rw [hsize]; decide)).2.2.1 with ⟨-, h⟩ | ⟨h, -⟩
    · rw [hsix] at h
      cases h
    · exact h
  have hretypes : p.Retypes t 3 := by
    rcases (hframe 3 (by rw [hsize]; decide)).2.2.2 with h | ⟨name, h⟩ | h
    · rw [hlong, hstring] at h
      exact absurd h (by decide +kernel)
    · simp [p] at h
    · exact h
  refine ⟨ht, hbody, hparameter, u, rfl, hnew, ?_, hlist, ?_, ?_, hkeeps, hlong, hretypes⟩
  · rw [← hbody]
    exact (hframe 7 (by rw [hsize]; decide)).1
  · exact hdrops (by rw [hsize]; decide) (hparent 4 (by decide)) hfour
  · exact hdrops (by rw [hsize]; decide) (hparent 5 (by decide)) hfive

end Plan

end ComponentAudit
