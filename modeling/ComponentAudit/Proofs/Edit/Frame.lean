import ComponentAudit.Edit.Plan
import ComponentAudit.Proofs.Tree.Walks

set_option autoImplicit false

/-! # What edits leave alone

The edits of a builder function happen below two nodes of the tree, its parameter list and the
block of its lambda. Everything else stays as it is, kinds and links alike: this is the frame
that later analyses of the same tree rest on.

A node is loose when it lies inside one of the given tops, or did not exist before. An edited tree
(`Tree.Edited`) is well formed and differs from the original in loose nodes and in the children of
the tops only.

Main statement: `Edit.edited_performAll`, edits of loose nodes keep a tree edited in this sense.
-/

namespace ComponentAudit

namespace Draft

theorem run_bind {α β : Type} (x : Draft α) (f : α → Draft β) (u : Tree) :
    (x >>= f).run u = (f (x.run u).1).run (x.run u).2 := rfl

theorem run_modify (f : Tree → Tree) (u : Tree) : (modify f : Draft Unit).run u = ((), f u) := rfl

end Draft

namespace Tree

/-- Whether edits below the given tops may touch a node. -/
def Loose (t : Tree) (tops : List NodeId) (n : NodeId) : Prop :=
  t.size ≤ n ∨ ∃ top ∈ tops, t.Inside n top

/-- Whether a tree comes from another one by changes below the given tops. -/
structure Edited (t : Tree) (tops : List NodeId) (u : Tree) : Prop where
  wellFormed : u.WellFormed
  root_eq : u.root = t.root
  size_le : t.size ≤ u.size
  kind_eq : ∀ {n : NodeId}, ¬ t.Loose tops n → u.kind n = t.kind n
  parent_eq : ∀ {n : NodeId}, ¬ t.Loose tops n → u.parent n = t.parent n
  children_eq : ∀ {n : NodeId}, ¬ t.Loose tops n → n ∉ tops → u.children n = t.children n

/-- Nothing lies under a node without children but the node itself. -/
theorem WellFormed.eq_of_under {t : Tree} (ht : t.WellFormed) {p n : NodeId}
    (hn : t.children n = []) (h : t.Under p n) : p = n := by
  rcases Relation.ReflTransGen.cases_tail h with h | ⟨c, -, hc⟩
  · exact h.symm
  · have hmem := ht.mem_children_iff.mpr hc
    rw [hn] at hmem
    cases hmem

/-- A node that hangs nowhere lies under nothing but itself. -/
theorem eq_of_under_of_parent_none {t : Tree} {p n : NodeId} (hp : t.parent p = none)
    (h : t.Under p n) : p = n := by
  rcases Relation.ReflTransGen.cases_head h with h | ⟨c, hc, -⟩
  · exact h
  · exact absurd (hp.symm.trans hc) (by simp)

namespace Edited

variable {t u : Tree} {tops : List NodeId}

theorem refl (ht : t.WellFormed) : t.Edited tops t where
  wellFormed := ht
  root_eq := rfl
  size_le := Nat.le_refl _
  kind_eq := fun _ => rfl
  parent_eq := fun _ => rfl
  children_eq := fun _ _ => rfl

/-- What lies inside a top or a loose node is loose. -/
theorem loose_of_parent (ht : t.WellFormed) (h : t.Edited tops u) {c p : NodeId}
    (hc : u.parent c = some p) (hp : t.Loose tops p ∨ p ∈ tops) : t.Loose tops c := by
  by_contra hloose
  rw [h.parent_eq hloose] at hc
  refine hloose (.inr ?_)
  rcases hp with (hp | ⟨top, htop, hp⟩) | hp
  · exact absurd (ht.lt_size hc) (Nat.not_lt_of_le hp)
  · exact ⟨top, htop, .head hc hp⟩
  · exact ⟨p, hp, .single hc⟩

/-- A loose node hangs below a loose one or a top. -/
theorem loose_parent (h : t.Edited tops u) (ht : t.WellFormed) {c p : NodeId}
    (hc : u.parent c = some p) (hloose : t.Loose tops c) : t.Loose tops p ∨ p ∈ tops := by
  by_contra hp
  rw [not_or] at hp
  have hmem := h.wellFormed.mem_children_iff.mpr hc
  rw [h.children_eq hp.1 hp.2, ht.mem_children_iff] at hmem
  rcases hloose with hloose | ⟨top, htop, hinside⟩
  · exact absurd (lt_size_of_parent hmem) (Nat.not_lt_of_le hloose)
  · obtain ⟨q, hq, hunder⟩ := hinside.exists_parent
    obtain rfl : q = p := Option.some.inj (hq.symm.trans hmem)
    rcases under_iff_eq_or_inside.mp hunder with rfl | hinside
    · exact hp.2 htop
    · exact hp.1 (.inr ⟨top, htop, hinside⟩)

/-- What is not loose lies under the same nodes as before. -/
theorem under_iff (h : t.Edited tops u) (ht : t.WellFormed) {n a : NodeId}
    (hn : ¬ t.Loose tops n) : u.Under n a ↔ t.Under n a := by
  -- no loose node is above one that is not loose, so the way up is the same step by step
  have up {c p : NodeId} (hc : ¬ t.Loose tops c) (hp : t.parent c = some p) :
      ¬ t.Loose tops p := by
    rintro (hloose | ⟨top, htop, hinside⟩)
    · exact absurd (ht.lt_size hp) (Nat.not_lt_of_le hloose)
    · exact hc (.inr ⟨top, htop, .head hp hinside⟩)
  constructor
  · intro hna
    induction hna using Relation.ReflTransGen.head_induction_on with
    | refl => exact .refl
    | @head c p hc _ ih =>
        have hc : t.parent c = some p := (h.parent_eq hn).symm.trans hc
        exact .head hc (ih (up hn hc))
  · intro hna
    induction hna using Relation.ReflTransGen.head_induction_on with
    | refl => exact .refl
    | @head c p hc _ ih => exact .head ((h.parent_eq hn).trans hc) (ih (up hn hc))

theorem ne_of_loose {m n : NodeId} (hn : t.Loose tops n) (hm : ¬ t.Loose tops m) : m ≠ n :=
  fun hmn => hm (hmn ▸ hn)

/-! ## Single changes -/

theorem setKind (h : t.Edited tops u) {n : NodeId} (hn : t.Loose tops n) (k : Kind) :
    t.Edited tops (u.setKind n k) where
  wellFormed := h.wellFormed.setKind n k
  root_eq := h.root_eq
  size_le := by simpa using h.size_le
  kind_eq := by
    intro m hm
    rw [kind_setKind, if_neg (fun hmn => ne_of_loose hn hm hmn.1), h.kind_eq hm]
  parent_eq := by
    intro m hm
    rw [parent_setKind, h.parent_eq hm]
  children_eq := by
    intro m hm hmt
    rw [children_setKind, h.children_eq hm hmt]

theorem push (h : t.Edited tops u) (k : Kind) : t.Edited tops (u.push k) where
  wellFormed := h.wellFormed.push k
  root_eq := h.root_eq
  size_le := by
    rw [size_push]
    exact Nat.le_succ_of_le h.size_le
  kind_eq := by
    intro m hm
    have hne : m ≠ u.size := fun hmu => hm (.inl (hmu ▸ h.size_le))
    rw [kind_push, if_neg hne, h.kind_eq hm]
  parent_eq := by
    intro m hm
    rw [parent_push, h.parent_eq hm]
  children_eq := by
    intro m hm hmt
    rw [children_push, h.children_eq hm hmt]

theorem children_detach_of_loose (h : t.Edited tops u) (ht : t.WellFormed) {n m : NodeId}
    (hn : t.Loose tops n) (hm : ¬ t.Loose tops m) (hmt : m ∉ tops) :
    (u.detach n).children m = t.children m := by
  rw [children_detach, if_neg, h.children_eq hm hmt]
  intro hp
  rcases h.loose_parent ht hp hn with hp | hp
  · exact hm hp
  · exact hmt hp

theorem detach (h : t.Edited tops u) (ht : t.WellFormed) {n : NodeId} (hn : t.Loose tops n) :
    t.Edited tops (u.detach n) where
  wellFormed := h.wellFormed.detach n
  root_eq := by rw [root_detach, h.root_eq]
  size_le := by simpa using h.size_le
  kind_eq := by
    intro m hm
    rw [kind_detach, h.kind_eq hm]
  parent_eq := by
    intro m hm
    rw [parent_detach, if_neg (ne_of_loose hn hm), h.parent_eq hm]
  children_eq := fun hm hmt => h.children_detach_of_loose ht hn hm hmt

/-- Hanging a loose node below another loose node or below a top. -/
theorem hang (h : t.Edited tops u) (ht : t.WellFormed) {v : Tree} {n p : NodeId}
    (hn : t.Loose tops n) (hp : t.Loose tops p ∨ p ∈ tops) (hv : v.WellFormed)
    (hroot : v.root = u.root) (hsize : v.size = u.size) (hkind : ∀ m, v.kind m = u.kind m)
    (hparent : ∀ m, m ≠ n → v.parent m = u.parent m)
    (hchildren : ∀ m, m ≠ p → v.children m = (u.detach n).children m) : t.Edited tops v where
  wellFormed := hv
  root_eq := hroot.trans h.root_eq
  size_le := hsize ▸ h.size_le
  kind_eq := fun hm => (hkind _).trans (h.kind_eq hm)
  parent_eq := fun hm => (hparent _ (ne_of_loose hn hm)).trans (h.parent_eq hm)
  children_eq := by
    intro m hm hmt
    have hne : m ≠ p := hp.elim (fun hp => ne_of_loose hp hm) (fun hp hmp => hmt (hmp ▸ hp))
    rw [hchildren m hne]
    exact h.children_detach_of_loose ht hn hm hmt

theorem insertChild (h : t.Edited tops u) (ht : t.WellFormed) {n p : NodeId}
    (hn : t.Loose tops n) (hp : t.Loose tops p ∨ p ∈ tops) (hsize : n < u.size)
    (hpsize : p < u.size) (hnp : ¬ u.Under p n) (i : Nat) :
    t.Edited tops (u.insertChild p i n) := by
  refine h.hang ht hn hp (h.wellFormed.insertChild hsize hpsize hnp i) (by simp) (by simp)
    (by simp) (fun m hm => ?_) (fun m hm => ?_)
  · rw [parent_insertChild _ _ _ _ _ hsize, if_neg hm]
  · rw [children_insertChild, if_neg (fun hmp => hm hmp.1)]

theorem appendChild (h : t.Edited tops u) (ht : t.WellFormed) {n p : NodeId}
    (hn : t.Loose tops n) (hp : t.Loose tops p ∨ p ∈ tops) (hsize : n < u.size)
    (hpsize : p < u.size) (hnp : ¬ u.Under p n) :
    t.Edited tops (u.appendChild p n) := by
  refine h.hang ht hn hp (h.wellFormed.appendChild hsize hpsize hnp) (by simp) (by simp)
    (by simp) (fun m hm => ?_) (fun m hm => ?_)
  · rw [parent_appendChild _ _ _ _ hsize, if_neg hm]
  · rw [children_appendChild, if_neg (fun hmp => hm hmp.1)]

/-- Putting a node beside a loose one. -/
theorem insertBeside (h : t.Edited tops u) (ht : t.WellFormed) {anchor n : NodeId}
    (hanchor : t.Loose tops anchor) (hn : t.Loose tops n) (hsize : n < u.size)
    (hnp : ∀ p, u.parent anchor = some p → ¬ u.Under p n) (offset : Nat) :
    t.Edited tops (u.insertBeside anchor n offset).2 := by
  unfold Tree.insertBeside
  split
  · exact h
  · next p hp =>
    have hdetach := h.detach ht hn
    dsimp only
    split
    · refine hdetach.insertChild ht hn (h.loose_parent ht hp hanchor) (by simpa using hsize)
        (by simpa using h.wellFormed.lt_size hp) ?_ _
      intro hunder
      exact hnp p hp (under_of_detach hunder)
    · exact hdetach

/-- Inserting a node below a top. A node that is not loose does not lie under a loose one. -/
theorem insertUnder (h : t.Edited tops u) (ht : t.WellFormed) {top n : NodeId}
    (htop : top ∈ tops) (hfree : ¬ t.Loose tops top) (hn : t.Loose tops n) (hsize : n < u.size)
    (anchor : Option NodeId) : t.Edited tops (u.insertUnder top anchor n) := by
  have hlt : top < t.size := Nat.lt_of_not_le fun hle => hfree (.inl hle)
  have hnot : ¬ u.Under top n := by
    intro hunder
    rw [h.under_iff ht hfree] at hunder
    rcases hn with hn | ⟨top', htop', hn⟩
    -- nothing lay under a node that did not exist
    · rcases under_iff_eq_or_inside.mp hunder with rfl | hinside
      · exact absurd hlt (Nat.not_lt_of_le hn)
      · obtain ⟨c, hc, hcn⟩ := Relation.TransGen.tail'_iff.mp hinside
        exact absurd (ht.lt_size hcn) (Nat.not_lt_of_le hn)
    · exact hfree (.inr ⟨top', htop', Relation.TransGen.trans_right hunder hn⟩)
  unfold Tree.insertUnder
  split
  · next a ha =>
    have hparent : u.parent a = some top := by
      obtain ⟨-, ha⟩ := Option.filter_eq_some_iff.mp ha
      simpa using ha
    refine h.insertBeside ht (h.loose_of_parent ht hparent (.inr htop)) hn hsize ?_ 1
    intro p hp
    obtain rfl : top = p := Option.some.inj (hparent.symm.trans hp)
    exact hnot
  · exact h.insertChild ht hn (.inr htop) hsize (Nat.lt_of_lt_of_le hlt h.size_le) hnot 0

end Edited

/-! ## New nodes -/

/-- A node that was made for an edit: it did not exist before, and hangs nowhere yet. -/
structure Made (t : Tree) (tops : List NodeId) (made : NodeId × Tree) : Prop where
  edited : t.Edited tops made.2
  new : t.size ≤ made.1
  lt_size : made.1 < made.2.size
  free : made.2.parent made.1 = none

variable {t u : Tree} {tops : List NodeId}

theorem Edited.made_leaf (h : t.Edited tops u) (k : Kind) : t.Made tops ((Draft.leaf k).run u) where
  edited := h.push k
  new := h.size_le
  lt_size := by
    show u.size < (u.push k).size
    simp
  free := by
    show (u.push k).parent u.size = none
    rw [parent_push, parent_of_le (Nat.le_refl _)]

/-- Hanging new nodes below a new one. -/
theorem Made.adopt (ht : t.WellFormed) {id : NodeId} {ids : List NodeId}
    (h : t.Made tops (id, u)) (hids : ∀ n ∈ ids, t.size ≤ n ∧ n < u.size ∧ n ≠ id) :
    t.Made tops (id, ids.foldl (·.appendChild id) u) := by
  induction ids generalizing u with
  | nil => exact h
  | cons n ids ih =>
      obtain ⟨hnew, hlt, hne⟩ := hids n List.mem_cons_self
      have hnot : ¬ u.Under id n :=
        fun hunder => hne (eq_of_under_of_parent_none h.free hunder).symm
      refine ih ⟨?_, h.new, by simpa using h.lt_size, ?_⟩ ?_
      · exact h.edited.appendChild ht (.inl hnew) (.inl (.inl h.new)) hlt h.lt_size hnot
      · show (u.appendChild id n).parent id = none
        rw [parent_appendChild _ _ _ _ hlt, if_neg (Ne.symm hne)]
        exact h.free
      · intro m hm
        simpa using hids m (List.mem_cons_of_mem _ hm)

theorem Edited.made_branch (h : t.Edited tops u) (ht : t.WellFormed) (k : Kind) {ids : List NodeId}
    (hids : ∀ n ∈ ids, t.size ≤ n ∧ n < u.size) : t.Made tops ((Draft.branch k ids).run u) := by
  have hmade : t.Made tops (u.size, u.push k) := h.made_leaf k
  refine hmade.adopt ht fun n hn => ?_
  obtain ⟨hnew, hlt⟩ := hids n hn
  refine ⟨hnew, ?_, Nat.ne_of_lt hlt⟩
  show n < (u.push k).size
  rw [size_push]
  exact Nat.lt_succ_of_lt hlt

theorem size_leaf (u : Tree) (k : Kind) : ((Draft.leaf k).run u).2.size = u.size + 1 := size_push ..

theorem Edited.made_parameter (h : t.Edited tops u) (ht : t.WellFormed) (name : String)
    (type : Option TypeExpr) (initial : Option String) :
    t.Made tops ((Draft.parameter name type initial).run u) := by
  cases type with
  | none => exact h.made_leaf _
  | some type =>
      set v := u.push (.parameter name initial) with hv
      have hleaf : t.Made tops (u.size, v) := h.made_leaf _
      have hmade : t.Made tops (u.size, v.push (.typeRef type)) := by
        refine ⟨hleaf.edited.push _, hleaf.new, ?_, ?_⟩
        · exact Nat.lt_of_lt_of_le hleaf.lt_size (by simp)
        · exact (parent_push ..).trans hleaf.free
      have hadopt := @Made.adopt _ _ tops ht u.size [v.size] hmade fun n hn => by
        obtain rfl := List.mem_singleton.mp hn
        exact ⟨hleaf.edited.size_le, by simp, by simp [hv]⟩
      exact hadopt

theorem Edited.made_assignMember (h : t.Edited tops u) (ht : t.WellFormed)
    (receiver field value : String) :
    t.Made tops ((Draft.assignMember receiver field value).run u) := by
  simp only [Draft.assignMember, Draft.run_bind, Draft.reference, Draft.select, Draft.assign]
  -- each node is forgotten once it is known to be new, or else the tree is built again and again
  have h₁ := h.made_leaf (.reference receiver)
  generalize (Draft.leaf (.reference receiver)).run u = p₁ at h₁ ⊢
  have h₂ := h₁.edited.made_leaf (.reference field)
  have size₂ := size_leaf p₁.2 (.reference field)
  generalize (Draft.leaf (.reference field)).run p₁.2 = p₂ at h₂ size₂ ⊢
  have h₃ : t.Made tops ((Draft.branch .select [p₁.1, p₂.1]).run p₂.2) := by
    refine h₂.edited.made_branch ht .select fun n hn => ?_
    rcases List.mem_pair.mp hn with rfl | rfl
    · exact ⟨h₁.new, by rw [size₂]; exact Nat.lt_succ_of_lt h₁.lt_size⟩
    · exact ⟨h₂.new, h₂.lt_size⟩
  generalize (Draft.branch .select [p₁.1, p₂.1]).run p₂.2 = p₃ at h₃ ⊢
  have h₄ := h₃.edited.made_leaf (.reference value)
  have size₄ := size_leaf p₃.2 (.reference value)
  generalize (Draft.leaf (.reference value)).run p₃.2 = p₄ at h₄ size₄ ⊢
  refine h₄.edited.made_branch ht .assign fun n hn => ?_
  rcases List.mem_pair.mp hn with rfl | rfl
  · exact ⟨h₃.new, by rw [size₄]; exact Nat.lt_succ_of_lt h₃.lt_size⟩
  · exact ⟨h₄.new, h₄.lt_size⟩

/-! ## Steps of edits -/

theorem children_push_new (u : Tree) (k : Kind) : (u.push k).children u.size = [] := by
  rw [children_push, children_of_le (Nat.le_refl _)]

/-- Putting a new node without children beside a loose one. -/
theorem Edited.insertLeaf (h : t.Edited tops u) (ht : t.WellFormed) {anchor : NodeId}
    (hanchor : t.Loose tops anchor) (k : Kind) :
    t.Edited tops ((u.push k).insertAfter anchor u.size).2 := by
  refine (h.push k).insertBeside ht hanchor (.inl h.size_le) (by simp) ?_ 1
  intro p hp hunder
  have hlt := (h.push k).wellFormed.lt_size hp
  obtain rfl := (h.push k).wellFormed.eq_of_under (children_push_new u k) hunder
  have hmem := (h.push k).wellFormed.mem_children_iff.mpr hp
  rw [children_push_new] at hmem
  cases hmem

theorem Edited.setWrittenType (h : t.Edited tops u) (ht : t.WellFormed) {n : NodeId}
    (hn : ∃ top ∈ tops, t.Inside n top) (type : TypeExpr) :
    t.Edited tops (u.setWrittenType n type) := by
  unfold Tree.setWrittenType
  split
  -- a type that is written already is replaced; it hangs below the loose node
  · next ref href =>
    have hmem : ref ∈ u.children n := List.mem_of_find?_eq_some href
    have hparent := h.wellFormed.mem_children_iff.mp hmem
    exact h.setKind (h.loose_of_parent ht hparent (.inl (.inr hn))) _
  · obtain ⟨top, htop, hinside⟩ := hn
    have hlt : n < u.size := Nat.lt_of_lt_of_le hinside.lt_size h.size_le
    have hpush := h.push (.typeRef type)
    refine hpush.appendChild ht (.inl h.size_le) (.inl (.inr ⟨top, htop, hinside⟩)) (by simp)
      (by simpa using Nat.lt_succ_of_lt hlt) fun hunder => ?_
    exact absurd (hpush.wellFormed.eq_of_under (children_push_new ..) hunder) (Nat.ne_of_lt hlt)

/-- The sibling after a node hangs below the same parent. -/
theorem exists_parent_of_next? {n m : NodeId} (h : u.next? n = some m) :
    ∃ p, u.parent n = some p ∧ m ∈ u.children p := by
  unfold Tree.next? at h
  obtain ⟨p, hp, h⟩ := Option.bind_eq_some_iff.mp h
  obtain ⟨i, -, h⟩ := Option.bind_eq_some_iff.mp h
  exact ⟨p, hp, List.mem_of_getElem? h⟩

theorem Edited.dropStatement (h : t.Edited tops u) (ht : t.WellFormed) {n : NodeId}
    (hn : ∃ top ∈ tops, t.Inside n top) : t.Edited tops (u.dropStatement n) := by
  unfold Tree.dropStatement
  split
  · next blank hblank =>
    obtain ⟨hnext, -⟩ := Option.filter_eq_some_iff.mp hblank
    obtain ⟨p, hp, hmem⟩ := exists_parent_of_next? hnext
    have hloose : t.Loose tops blank :=
      h.loose_of_parent ht (h.wellFormed.mem_children_iff.mp hmem) (h.loose_parent ht hp (.inr hn))
    exact (h.detach ht hloose).detach ht (.inr hn)
  · exact h.detach ht (.inr hn)

theorem Edited.renameLocal (h : t.Edited tops u) {n : NodeId}
    (hn : ∃ top ∈ tops, t.Inside n top) (name : String) : t.Edited tops (u.renameLocal n name) := by
  unfold Tree.renameLocal
  split
  · exact h.setKind (.inr hn) _
  · exact h.setKind (.inr hn) _
  · exact h

end Tree

namespace Edit

/-- Whether an edit happens below the given tops. -/
def Below (t : Tree) (tops : List NodeId) : Edit → Prop
  | retype n _ | dropStatement n | dropParameter n | rename n _ => ∃ top ∈ tops, t.Inside n top
  | addParameter top .. | addAssignment top .. => top ∈ tops ∧ ¬ t.Loose tops top

variable {t u : Tree} {tops : List NodeId}

theorem edited_perform (ht : t.WellFormed) (h : t.Edited tops u) {e : Edit} (he : e.Below t tops)
    (created : List NodeId) : t.Edited tops ((e.perform created).run u).2 := by
  cases e with
  | retype n type =>
      exact h.setWrittenType ht he type
  | addParameter list after name type =>
      obtain ⟨htop, hfree⟩ := he
      have hmade := h.made_parameter ht name type none
      show t.Edited tops (((Draft.parameter name type none).run u).2.insertUnder list
        (after.bind (·.node? created)) ((Draft.parameter name type none).run u).1)
      exact hmade.edited.insertUnder ht htop hfree (.inl hmade.new) hmade.lt_size _
  | addAssignment block after receiver field =>
      obtain ⟨htop, hfree⟩ := he
      have hmade := h.made_assignMember ht receiver field field
      simp only [perform, Draft.run_bind, Draft.run_modify, Draft.newline, Draft.blank]
      set made := (Draft.assignMember receiver field field).run u
      have hv : t.Edited tops (made.2.insertUnder block (after.bind (·.node? created)) made.1) :=
        hmade.edited.insertUnder ht htop hfree (.inl hmade.new) hmade.lt_size _
      set v := made.2.insertUnder block (after.bind (·.node? created)) made.1
      exact hv.insertLeaf ht (.inl hmade.new) _
  | dropStatement n =>
      exact h.dropStatement ht he
  | dropParameter n =>
      obtain ⟨top, htop, hn⟩ := he
      exact h.detach ht (.inr ⟨top, htop, hn⟩)
  | rename n name =>
      exact h.renameLocal he name

/-- **Edits below the tops** leave everything else alone. -/
theorem edited_performAll (ht : t.WellFormed) {es : List Edit} (h : t.Edited tops u)
    (hes : ∀ e ∈ es, e.Below t tops) (created : List NodeId) :
    t.Edited tops ((performAll created es).run u).2 := by
  induction es generalizing u created with
  | nil => exact h
  | cons e es ih =>
      simp only [performAll, Draft.run_bind]
      have hstep := edited_perform ht h (hes e List.mem_cons_self) created
      exact ih hstep (fun e he => hes e (List.mem_cons_of_mem _ he)) _

end Edit

end ComponentAudit
