import ComponentAudit.Proofs.Edit.Again
import ComponentAudit.Proofs.Edit.Generated
import ComponentAudit.Proofs.Edit.Inserted
import ComponentAudit.Proofs.Edit.Same

set_option autoImplicit false

/-! # What single edits do

Synchronising a builder function edits two nodes, the parameter list and the block of the lambda.
An edit is described by what it makes of the children of the two (`Edit.Effect`): which children
there are afterwards and in what order, and that those there were before stay as they are.

Main statements: `Edit.effect_step` for the edits that change types and insert, and
`Tree.exists_gone` for the removal of statements.
-/

namespace ComponentAudit

/-- Whether a list is another one with new members behind an anchor, or in front of all when the
anchor is not a member. -/
def InsertedAfter (anchor : Option NodeId) (new l l' : List NodeId) : Prop :=
  ∃ before after, l = before ++ after ∧ l' = before ++ new ++ after ∧
    before.getLast? = anchor.filter (· ∈ l)

namespace InsertedAfter

variable {anchor : Option NodeId} {new l l' : List NodeId} (h : InsertedAfter anchor new l l')

include h

theorem sublist : l.Sublist l' := by
  obtain ⟨before, after, rfl, rfl, -⟩ := h
  exact (List.sublist_append_left before new).append (List.Sublist.refl after)

theorem mem_iff {x : NodeId} : x ∈ l' ↔ x ∈ l ∨ x ∈ new := by
  obtain ⟨before, after, rfl, rfl, -⟩ := h
  simp only [List.mem_append]
  tauto

end InsertedAfter

namespace Tree

/-! ## Changes below one node -/

/-- Whether only the children of one node differ, and nodes that are new. -/
structure Changed (u : Tree) (site : NodeId) (v : Tree) : Prop where
  wellFormed : v.WellFormed
  size_le : u.size ≤ v.size
  kind_eq : ∀ {n : NodeId}, n < u.size → v.kind n = u.kind n
  children_eq : ∀ {n : NodeId}, n < u.size → n ≠ site → v.children n = u.children n

variable {t u v w : Tree} {site top n x : NodeId}

theorem writtenType?_congr (hchildren : v.children x = u.children x)
    (hkind : ∀ c ∈ u.children x, v.kind c = u.kind c) : v.writtenType? x = u.writtenType? x := by
  have href : v.typeRef? x = u.typeRef? x := by
    rw [typeRef?, child?, hchildren, typeRef?, child?]
    exact List.find?_congr fun c hc => by rw [hkind c hc]
  rw [writtenType?, href, writtenType?]
  refine Option.bind_congr fun r hr => ?_
  rw [hkind r (List.mem_of_find?_eq_some hr)]

theorem Grown.changed {adopted : List NodeId} (h : u.Grown adopted v) : u.Changed site v :=
  ⟨h.wellFormed, h.size_le, h.kind_eq, fun hn _ => h.children_eq hn⟩

namespace Changed

theorem trans (h : u.Changed site v) (h' : v.Changed site w) : u.Changed site w where
  wellFormed := h'.wellFormed
  size_le := Nat.le_trans h.size_le h'.size_le
  kind_eq hn := (h'.kind_eq (Nat.lt_of_lt_of_le hn h.size_le)).trans (h.kind_eq hn)
  children_eq hn hsite :=
    (h'.children_eq (Nat.lt_of_lt_of_le hn h.size_le) hsite).trans (h.children_eq hn hsite)

/-- What is not above the place of the change stays as it is. -/
theorem sameBelow (h : u.Changed site v) (hx : x < u.size) (hsite : ¬ u.Under site x) :
    u.SameBelow v x := by
  intro y hy
  have hlt : y < u.size := by
    rcases under_iff_eq_or_inside.mp hy with rfl | hinside
    · exact hx
    · exact hinside.lt_size
  exact ⟨h.kind_eq hlt, h.children_eq hlt fun heq => hsite (heq ▸ hy)⟩

theorem writtenType?_eq (h : u.Changed site v) (hu : u.WellFormed) (hx : x < u.size)
    (hsite : x ≠ site) : v.writtenType? x = u.writtenType? x :=
  writtenType?_congr (h.children_eq hx hsite)
    fun _ hc => h.kind_eq (hu.inside_of_child hc).lt_size

/-- A change elsewhere than in the file itself keeps the declarations. -/
theorem declarations_eq (h : u.Changed site v) (hu : u.WellFormed) (hroot : v.root = u.root)
    (hlt : u.root < u.size) (hsite : u.root ≠ site) : v.declarations = u.declarations := by
  rw [declarations, significant, hroot, h.children_eq hlt hsite]
  exact List.filter_congr fun c hc => by rw [h.kind_eq (hu.inside_of_child hc).lt_size]

theorem built_of_ne {k : Kind} {cs : List NodeId} (h : u.Changed site v) (hn : u.Built n k cs)
    (hne : n ≠ site) : v.Built n k cs where
  lt_size := Nat.lt_of_lt_of_le hn.lt_size h.size_le
  kind_eq := (h.kind_eq hn.lt_size).trans hn.kind_eq
  children_eq := (h.children_eq hn.lt_size hne).trans hn.children_eq

theorem built {k : Kind} {cs : List NodeId} (h : u.Changed site v) (hn : u.Built n k cs)
    (hsite : u.kind site ≠ k) : v.Built n k cs := by
  refine h.built_of_ne hn ?_
  rintro rfl
  exact hsite hn.kind_eq

/-- A store is not touched by what happens to a block. -/
theorem storeParts {place r m y : NodeId} {receiver member value : String} (h : u.Changed site v)
    (hx : u.StoreParts x receiver member value place r m y) (hsite : u.kind site = .block) :
    v.StoreParts x receiver member value place r m y where
  statement := h.built hx.statement (by simp [hsite])
  place := h.built hx.place (by simp [hsite])
  receiver := h.built hx.receiver (by simp [hsite])
  member := h.built hx.member (by simp [hsite])
  value := h.built hx.value (by simp [hsite])

end Changed

/-- The children are distinct, so each is found where it stands. -/
theorem WellFormed.index_child (hu : u.WellFormed) {a : NodeId} {before after : List NodeId}
    (hchildren : u.children top = before ++ a :: after) {i : Nat}
    (hi : (u.children top)[i]? = some a) : i = before.length := by
  have hlt : before.length < (u.children top).length := by simp [hchildren]
  refine ((List.getElem?_inj hlt (hu.nodup_children top)).mp ?_).symm
  rw [hi, hchildren]
  simp

theorem WellFormed.changed_detach (hu : u.WellFormed) (hparent : u.parent n = some top) :
    u.Changed top (u.detach n) where
  wellFormed := hu.detach n
  size_le := Nat.le_of_eq (size_detach ..).symm
  kind_eq _ := kind_detach ..
  children_eq {m} _ hne := by
    rw [hu.children_detach, List.filter_eq_self]
    intro c hc
    have hcn : c ≠ n := by
      rintro rfl
      exact hne (Option.some.inj ((hu.mem_children_iff.mp hc).symm.trans hparent))
    simpa using hcn

namespace WellFormed

variable (hu : u.WellFormed) (htop : top < u.size) (hn : n < u.size) (hfree : u.parent n = none)
  (hunder : ¬ u.Under top n)

include hu htop hn hfree hunder

theorem changed_insertChild (i : Nat) : u.Changed top (u.insertChild top i n) where
  wellFormed := hu.insertChild hn htop hunder i
  size_le := Nat.le_of_eq (size_insertChild ..).symm
  kind_eq _ := kind_insertChild ..
  children_eq _ hne := by rw [children_insertChild_of_free htop hfree, if_neg hne]

/-- Putting a node behind a child of another one. -/
theorem changed_insertAfter {a : NodeId} {before after : List NodeId}
    (hchildren : u.children top = before ++ a :: after) :
    u.Changed top (u.insertAfter a n).2 ∧
      (u.insertAfter a n).2.children top = before ++ a :: n :: after := by
  have ha : u.parent a = some top := hu.mem_children_iff.mp (by simp [hchildren])
  obtain ⟨i, hi, heq⟩ := hu.insertAfter_of_parent hfree ha
  have hindex := hu.index_child hchildren hi
  rw [heq]
  refine ⟨hu.changed_insertChild htop hn hfree hunder (i + 1), ?_⟩
  rw [children_insertChild_of_free htop hfree, if_pos rfl, hchildren, hindex]
  simp [List.take_append, List.drop_append, List.take_of_length_le, List.drop_eq_nil_of_le]

/-- Putting a node in the place of a child of another one. -/
theorem changed_replace {a : NodeId} {before after : List NodeId}
    (hchildren : u.children top = before ++ a :: after) :
    u.Changed top (u.replace a n).2 ∧ (u.replace a n).2.root = u.root ∧
      (u.replace a n).2.children top = before ++ n :: after := by
  have ha : u.parent a = some top := hu.mem_children_iff.mp (by simp [hchildren])
  have hne : a ≠ n := by
    rintro rfl
    cases ha.symm.trans hfree
  obtain ⟨i, hi, heq⟩ := hu.insertBeside_of_parent hfree ha 0
  rw [Nat.add_zero] at heq
  have hindex := hu.index_child hchildren hi
  have hinserted := hu.changed_insertChild htop hn hfree hunder i
  have hchildren' : (u.insertChild top i n).children top = before ++ n :: a :: after := by
    rw [children_insertChild_of_free htop hfree, if_pos rfl, hchildren, hindex]
    simp
  have hreplace : (u.replace a n).2 = (u.insertChild top i n).detach a := by
    rw [replace, if_neg hne, insertBefore, heq]
  have hparent : (u.insertChild top i n).parent a = some top :=
    hinserted.wellFormed.mem_children_iff.mp (by simp [hchildren'])
  rw [hreplace]
  refine ⟨hinserted.trans (hinserted.wellFormed.changed_detach hparent), by simp, ?_⟩
  rw [hinserted.wellFormed.children_detach, hchildren']
  -- the child is the only one of its number
  have hnodup := hu.nodup_children top
  rw [hchildren] at hnodup
  obtain ⟨-, hafter, hbefore⟩ := List.nodup_append.mp hnodup
  have hkeep {l : List NodeId} (hl : a ∉ l) : l.filter (· != a) = l := by
    refine List.filter_eq_self.mpr fun c hc => ?_
    have hca : c ≠ a := fun heq => hl (heq ▸ hc)
    simpa using hca
  rw [List.filter_append, List.filter_cons_of_pos (by simpa using hne.symm),
    List.filter_cons_of_neg (by simp), hkeep fun hmem => hbefore a hmem a List.mem_cons_self rfl,
    hkeep (List.nodup_cons.mp hafter).1]

theorem changed_appendChild : u.Changed top (u.appendChild top n) ∧
    (u.appendChild top n).children top = u.children top ++ [n] := by
  have hchildren (m : NodeId) : (u.appendChild top n).children m =
      if m = top ∧ m < u.size then u.children m ++ [n] else u.children m := by
    rw [children_appendChild, detach_of_parent_none hfree]
  refine ⟨⟨hu.appendChild hn htop hunder, ?_, ?_, ?_⟩, ?_⟩
  · exact Nat.le_of_eq (size_appendChild ..).symm
  · exact fun _ => kind_appendChild ..
  · intro m _ hne
    rw [hchildren, if_neg fun h => hne h.1]
  · rw [hchildren, if_pos ⟨rfl, htop⟩]

theorem changed_insertUnder (anchor : Option NodeId) :
    u.Changed top (u.insertUnder top anchor n) ∧
      InsertedAfter anchor [n] (u.children top) ((u.insertUnder top anchor n).children top) := by
  have hfilter : (anchor.filter fun a => u.parent a == some top) =
      anchor.filter (· ∈ u.children top) := by
    congr 1
    funext a
    simp [hu.mem_children_iff, beq_eq_decide]
  unfold insertUnder
  rw [hfilter]
  cases ha : anchor.filter (· ∈ u.children top) with
  | none =>
      refine ⟨hu.changed_insertChild htop hn hfree hunder 0, [], u.children top, rfl, ?_, ?_⟩
      · simp [children_insertChild_of_free htop hfree]
      · rw [ha]
        rfl
  | some a =>
      have hmem : a ∈ u.children top := by simpa using (Option.filter_eq_some_iff.mp ha).2
      obtain ⟨before, after, hchildren⟩ := List.append_of_mem hmem
      obtain ⟨hchanged, hafter⟩ := hu.changed_insertAfter htop hn hfree hunder hchildren
      refine ⟨hchanged, before ++ [a], after, by simp [hchildren], by simp [hafter], ?_⟩
      rw [ha]
      simp

end WellFormed

/-! ## Written types -/

/-- Whether a node has a type written on it, and all else is as before. -/
structure Retyped (u : Tree) (p : NodeId) (type : TypeExpr) (v : Tree) : Prop where
  wellFormed : v.WellFormed
  size_le : u.size ≤ v.size
  type_eq : v.writtenType? p = some type
  kind_eq : ∀ {n : NodeId}, n < u.size → u.parent n ≠ some p → v.kind n = u.kind n
  children_eq : ∀ {n : NodeId}, n < u.size → n ≠ p → v.children n = u.children n

/-- A type that is written already is replaced. -/
theorem retyped_setKind (hu : u.WellFormed) {p ref : NodeId} (href : u.typeRef? p = some ref)
    (type : TypeExpr) : u.Retyped p type (u.setKind ref (.typeRef type)) := by
  have hmem : ref ∈ u.children p := List.mem_of_find?_eq_some href
  have hself : (u.setKind ref (.typeRef type)).kind ref = .typeRef type := by
    simp [kind_setKind, (hu.inside_of_child hmem).lt_size]
  -- the type reference is still the first one
  have href' : (u.setKind ref (.typeRef type)).typeRef? p = some ref := by
    unfold typeRef? child? at href ⊢
    rw [children_setKind, ← href]
    refine List.find?_congr fun c _ => ?_
    by_cases hc : c = ref
    · rw [hc, hself, List.find?_some href]
      rfl
    · simp [kind_setKind, hc]
  refine ⟨hu.setKind _ _, Nat.le_of_eq (size_setKind ..).symm, ?_, ?_, ?_⟩
  · rw [writtenType?, href', Option.bind_some, hself]
    rfl
  · intro n _ hparent
    have hne : n ≠ ref := by
      rintro rfl
      exact hparent (hu.mem_children_iff.mp hmem)
    simp [kind_setKind, hne]
  · intro n _ _
    exact children_setKind ..

/-- Where no type is written, a reference to it is put behind the other children. -/
theorem retyped_annotate (hu : u.WellFormed) {p : NodeId} (hp : p < u.size)
    (href : u.typeRef? p = none) (type : TypeExpr) :
    u.Retyped p type ((u.push (.typeRef type)).appendChild p u.size) := by
  have hpushed := hu.push (.typeRef type)
  have hfree : (u.push (.typeRef type)).parent u.size = none := by
    rw [parent_push, parent_of_le (Nat.le_refl _)]
  have hunder : ¬ (u.push (.typeRef type)).Under p u.size := fun h =>
    absurd (hpushed.eq_of_under (children_push_new ..) h) (Nat.ne_of_lt hp)
  have hpl : p < (u.push (.typeRef type)).size := by simpa using Nat.lt_succ_of_lt hp
  have hchildren (n : NodeId) : ((u.push (.typeRef type)).appendChild p u.size).children n =
      if n = p then u.children n ++ [u.size] else u.children n := by
    rw [children_appendChild, detach_of_parent_none hfree, children_push]
    by_cases hn : n = p
    · simp [hn, Nat.lt_succ_of_lt hp]
    · simp [hn]
  have hkind (n : NodeId) : ((u.push (.typeRef type)).appendChild p u.size).kind n =
      if n = u.size then .typeRef type else u.kind n := by
    rw [kind_appendChild, kind_push]
  have href' : ((u.push (.typeRef type)).appendChild p u.size).typeRef? p = some u.size := by
    unfold typeRef? child? at href ⊢
    have hold : (u.children p).find? (fun c =>
        (((u.push (.typeRef type)).appendChild p u.size).kind c).isTypeRef) = none := by
      rw [← href]
      refine List.find?_congr fun c hc => ?_
      rw [hkind, if_neg (Nat.ne_of_lt (hu.inside_of_child hc).lt_size)]
    rw [hchildren, if_pos rfl, List.find?_append, hold, Option.none_or]
    simp [hkind, Kind.isTypeRef]
  refine ⟨hpushed.appendChild (by simp) hpl hunder, by simp, ?_, ?_, ?_⟩
  · rw [writtenType?, href', Option.bind_some, hkind, if_pos rfl]
    rfl
  · intro n hn _
    rw [hkind, if_neg (Nat.ne_of_lt hn)]
  · intro n _ hne
    rw [hchildren, if_neg hne]

theorem retyped_setWrittenType (hu : u.WellFormed) {p : NodeId} (hp : p < u.size)
    (type : TypeExpr) : u.Retyped p type (u.setWrittenType p type) := by
  unfold setWrittenType
  cases href : u.typeRef? p with
  | some ref => exact retyped_setKind hu href type
  | none => exact retyped_annotate hu hp href type

namespace Retyped

variable {p : NodeId} {type : TypeExpr} (h : u.Retyped p type v)

include h

theorem sameBelow (hx : x < u.size) (hp : ¬ u.Under p x) (hparent : u.parent x ≠ some p) :
    u.SameBelow v x := by
  intro y hy
  rcases under_iff_eq_or_inside.mp hy with rfl | hinside
  · exact ⟨h.kind_eq hx hparent, h.children_eq hx fun heq => hp (heq ▸ hy)⟩
  · refine ⟨h.kind_eq hinside.lt_size fun hyp => ?_,
      h.children_eq hinside.lt_size fun heq => hp (heq ▸ hy)⟩
    obtain ⟨q, hq, hunder⟩ := hinside.exists_parent
    obtain rfl : p = q := Option.some.inj (hyp.symm.trans hq)
    exact hp hunder

theorem writtenType?_eq (hu : u.WellFormed) (hx : x < u.size) (hne : x ≠ p) :
    v.writtenType? x = u.writtenType? x := by
  refine writtenType?_congr (h.children_eq hx hne) fun c hc => ?_
  refine h.kind_eq (hu.inside_of_child hc).lt_size fun hparent => hne ?_
  exact Option.some.inj ((hu.mem_children_iff.mp hc).symm.trans hparent)

end Retyped

/-! ## Parameters and statements -/

/-- Whether the parameters in a list stay what they are, and the statements of a block with all they
consist of. -/
structure Kept (u : Tree) (list body : NodeId) (v : Tree) : Prop where
  wellFormed : v.WellFormed
  size_le : u.size ≤ v.size
  parameter : ∀ p ∈ u.children list, v.kind p = u.kind p
  statement : ∀ x ∈ u.children body, u.SameBelow v x

end Tree

namespace Builder.Parts

variable {b : Builder} {u v : Tree} {list call lambda body site : NodeId}
  (h : b.Parts u list call lambda body) (hu : u.WellFormed)

include h hu

theorem list_ne_body : list ≠ body := by
  rintro rfl
  exact h.list_not_under_body hu .refl

theorem not_under_statement {x : NodeId} (hx : x ∈ u.children body) : ¬ u.Under list x :=
  fun hunder => h.list_not_under_body hu (hunder.trans (hu.inside_of_child hx).under)

theorem ne_body_of_parameter {p : NodeId} (hp : p ∈ u.children list) : p ≠ body := by
  rintro rfl
  exact h.body_not_under_list hu (hu.inside_of_child hp).under

/-- Children that come and go below the list or below the block touch none of the others. -/
theorem kept_of_changed (hc : u.Changed site v) (hsite : site = list ∨ site = body) :
    u.Kept list body v where
  wellFormed := hc.wellFormed
  size_le := hc.size_le
  parameter _ hp := hc.kind_eq (hu.inside_of_child hp).lt_size
  statement x hx := by
    have hinside := hu.inside_of_child hx
    refine hc.sameBelow hinside.lt_size ?_
    rcases hsite with rfl | rfl
    · exact h.not_under_statement hu hx
    · exact fun hunder => hu.not_inside_of_under hunder hinside

theorem writtenType?_of_changed (hc : u.Changed site v) (hsite : site = list ∨ site = body)
    {p : NodeId} (hp : p ∈ u.children list) : v.writtenType? p = u.writtenType? p := by
  have hinside := hu.inside_of_child hp
  refine hc.writtenType?_eq hu hinside.lt_size ?_
  rcases hsite with rfl | rfl
  · rintro rfl
    exact hu.acyclic _ hinside
  · exact h.ne_body_of_parameter hu hp

/-- The type of a parameter is no part of another parameter or of a statement. -/
theorem kept_of_retyped {p : NodeId} {type : TypeExpr} (hr : u.Retyped p type v)
    (hp : p ∈ u.children list) : u.Kept list body v where
  wellFormed := hr.wellFormed
  size_le := hr.size_le
  parameter q hq := by
    refine hr.kind_eq (hu.inside_of_child hq).lt_size fun hparent => ?_
    obtain rfl : list = p := Option.some.inj ((hu.mem_children_iff.mp hq).symm.trans hparent)
    exact hu.acyclic _ (hu.inside_of_child hp)
  statement x hx := by
    have hparent := hu.mem_children_iff.mp hp
    refine hr.sameBelow (hu.inside_of_child hx).lt_size (fun hunder => ?_) fun hbody => ?_
    · rcases Tree.under_iff_eq_or_inside.mp hunder with rfl | hinside
      · exact h.list_ne_body hu
          (Option.some.inj (hparent.symm.trans (hu.mem_children_iff.mp hx)))
      · obtain ⟨q, hq, hqx⟩ := hinside.exists_parent
        obtain rfl : list = q := Option.some.inj (hparent.symm.trans hq)
        exact h.not_under_statement hu hx hqx
    · exact h.ne_body_of_parameter hu hp
        (Option.some.inj ((hu.mem_children_iff.mp hx).symm.trans hbody)).symm

end Builder.Parts

/-! ## Effects -/

namespace Edit

/-- The nodes inserted so far and the tree, after one more edit. -/
def step (x : List NodeId × Tree) (e : Edit) : List NodeId × Tree :=
  let made := (e.perform x.1).run x.2
  (x.1 ++ made.1.toList, made.2)

/-- What edits that are made one after the other insert, and the tree that they leave. -/
def outcome (t : Tree) (es : List Edit) : List NodeId × Tree := es.foldl step ([], t)

theorem performAll_eq (es : List Edit) (x : List NodeId × Tree) :
    ((performAll x.1 es).run x.2).2 = (es.foldl step x).2 := by
  induction es generalizing x with
  | nil => rfl
  | cons e es ih =>
      rw [List.foldl_cons, ← ih]
      rfl

theorem outcome_append (t : Tree) (es es' : List Edit) :
    outcome t (es ++ es') = es'.foldl step (outcome t es) := List.foldl_append

theorem outcome_concat (t : Tree) (es : List Edit) (e : Edit) :
    outcome t (es ++ [e]) = step (outcome t es) e := outcome_append t es [e]

/-- Whether an edit gives a parameter of the list a type, or inserts a parameter there, or inserts a
statement into the block. -/
def Supplies (t : Tree) (list body : NodeId) : Edit → Prop
  | retype p _ => p ∈ t.children list
  | addParameter l .. => l = list
  | addAssignment c .. => c = body
  | _ => False

/-- What such an edit makes of the parameters and of the statements, given the nodes inserted before
and the tree. -/
inductive Effect (list body : NodeId) (created : List NodeId) (u : Tree) :
    Edit → List NodeId → Tree → Prop
  | retype {p : NodeId} {type : TypeExpr} {v : Tree}
      (hlist : v.children list = u.children list) (hbody : v.children body = u.children body)
      (htype : v.writtenType? p = some type)
      (htypes : ∀ q ∈ u.children list, q ≠ p → v.writtenType? q = u.writtenType? q) :
      Effect list body created u (.retype p type) created v
  | addParameter {after : Option Anchor} {name : String} {type : Option TypeExpr} {id : NodeId}
      {v : Tree} (hnew : u.size ≤ id)
      (hlist : InsertedAfter (after.bind (·.node? created)) [id] (u.children list)
        (v.children list))
      (hbody : v.children body = u.children body) (hkind : v.kind id = .parameter name none)
      (htype : v.writtenType? id = type)
      (htypes : ∀ q ∈ u.children list, v.writtenType? q = u.writtenType? q) :
      Effect list body created u (.addParameter list after name type) (created ++ [id]) v
  | addAssignment {after : Option Anchor} {receiver field : String}
      {id blank place r m value : NodeId} {v : Tree} (hnew : u.size ≤ id) (hblank : u.size ≤ blank)
      (hlist : v.children list = u.children list)
      (hbody : InsertedAfter (after.bind (·.node? created)) [id, blank] (u.children body)
        (v.children body))
      (hstore : v.StoreParts id receiver field field place r m value)
      (hkind : v.kind blank = .blank "\n")
      (htypes : ∀ q ∈ u.children list, v.writtenType? q = u.writtenType? q) :
      Effect list body created u (.addAssignment body after receiver field) (created ++ [id]) v

namespace Effect

variable {list body : NodeId} {created created' : List NodeId} {u v : Tree} {e : Edit}

theorem children_list_eq (h : Effect list body created u e created' v)
    (he : ∀ after name type, e ≠ .addParameter list after name type) :
    v.children list = u.children list := by
  cases h with
  | retype hlist _ _ _ => exact hlist
  | addParameter _ _ _ _ _ _ => exact absurd rfl (he _ _ _)
  | addAssignment _ _ hlist _ _ _ _ => exact hlist

theorem children_body_eq (h : Effect list body created u e created' v)
    (he : ∀ after receiver field, e ≠ .addAssignment body after receiver field) :
    v.children body = u.children body := by
  cases h with
  | retype _ hbody _ _ => exact hbody
  | addParameter _ _ hbody _ _ _ => exact hbody
  | addAssignment _ _ _ _ _ _ _ => exact absurd rfl (he _ _ _)

theorem exists_parameter {after : Option Anchor} {name : String} {type : Option TypeExpr}
    (h : Effect list body created u (.addParameter list after name type) created' v) :
    ∃ id, created' = created ++ [id] ∧ v.kind id = .parameter name none ∧
      InsertedAfter (after.bind (·.node? created)) [id] (u.children list) (v.children list) := by
  cases h with
  | addParameter _ hlist _ hkind _ _ => exact ⟨_, rfl, hkind, hlist⟩

theorem exists_statement {after : Option Anchor} {receiver field : String}
    (h : Effect list body created u (.addAssignment body after receiver field) created' v) :
    ∃ id blank, created' = created ++ [id] ∧ v.memberStore? id = some (receiver, field) ∧
      v.kind blank = .blank "\n" ∧ InsertedAfter (after.bind (·.node? created)) [id, blank]
        (u.children body) (v.children body) := by
  cases h with
  | addAssignment _ _ _ hbody hstore hkind _ =>
      exact ⟨_, _, rfl, hstore.memberStore?_eq, hkind, hbody⟩

end Effect

section

variable {b : Builder} {u : Tree} {list call lambda body : NodeId}
  (h : b.Parts u list call lambda body) (hu : u.WellFormed) (created : List NodeId)

include h hu

theorem effect_retype {p : NodeId} (hp : p ∈ u.children list) (type : TypeExpr) :
    u.Kept list body (u.setWrittenType p type) ∧
      Effect list body created u (.retype p type) created (u.setWrittenType p type) := by
  have hr := Tree.retyped_setWrittenType hu (hu.inside_of_child hp).lt_size type
  have hlp : list ≠ p := by
    rintro rfl
    exact hu.acyclic _ (hu.inside_of_child hp)
  exact ⟨h.kept_of_retyped hu hr hp,
    .retype (hr.children_eq (h.list_inside_function hu).lt_size hlp)
      (hr.children_eq (h.body_inside_function hu).lt_size (h.ne_body_of_parameter hu hp).symm)
      hr.type_eq fun q hq hne => hr.writtenType?_eq hu (hu.inside_of_child hq).lt_size hne⟩

theorem effect_addParameter (after : Option Anchor) (name : String) (type : Option TypeExpr)
    {made : NodeId × Tree} (hmade : made = (Draft.parameter name type none).run u) :
    u.Kept list body (made.2.insertUnder list (after.bind (·.node? created)) made.1) ∧
      Effect list body created u (.addParameter list after name type) (created ++ [made.1])
        (made.2.insertUnder list (after.bind (·.node? created)) made.1) := by
  obtain ⟨cs, hdrafted, htype⟩ := Tree.drafted_parameter hu name type none
  rw [← hmade] at hdrafted htype
  have hgrown := hdrafted.grown
  have hlist := (h.list_inside_function hu).lt_size
  have hbody := (h.body_inside_function hu).lt_size
  have hunder : ¬ made.2.Under list made.1 := hgrown.not_under hu hlist hdrafted.new
  obtain ⟨hchanged, hinserted⟩ := hgrown.wellFormed.changed_insertUnder
    (Nat.lt_of_lt_of_le hlist hgrown.size_le) hdrafted.built.lt_size hdrafted.free hunder
    (after.bind (·.node? created))
  have hall : u.Changed list _ := hgrown.changed.trans hchanged
  refine ⟨h.kept_of_changed hu hall (.inl rfl), .addParameter hdrafted.new ?_ ?_ ?_ ?_ ?_⟩
  · rwa [hgrown.children_eq hlist] at hinserted
  · exact hall.children_eq hbody (h.list_ne_body hu).symm
  · rw [hchanged.kind_eq hdrafted.built.lt_size, hdrafted.built.kind_eq]
  · have hne : made.1 ≠ list := fun heq => hunder (heq ▸ .refl)
    rw [hchanged.writtenType?_eq hgrown.wellFormed hdrafted.built.lt_size hne,
      Tree.writtenType?_of_annotates hdrafted.built htype]
  · exact fun q hq => h.writtenType?_of_changed hu hall (.inl rfl) hq

theorem effect_addAssignment (after : Option Anchor) (receiver field : String)
    {made : NodeId × Tree} (hmade : made = (Draft.assignMember receiver field field).run u)
    {v w : Tree} (hv : v = made.2.insertUnder body (after.bind (·.node? created)) made.1)
    (hw : w = ((v.push (.blank "\n")).insertAfter made.1 v.size).2) :
    u.Kept list body w ∧
      Effect list body created u (.addAssignment body after receiver field) (created ++ [made.1])
        w := by
  obtain ⟨place, r, m, value, hdrafted, hstore⟩ := Tree.drafted_assignMember hu receiver field field
  rw [← hmade] at hdrafted hstore
  have hgrown := hdrafted.grown
  have hlist := (h.list_inside_function hu).lt_size
  have hbody := (h.body_inside_function hu).lt_size
  have hblock : made.2.kind body = .block := (hgrown.kind_eq hbody).trans h.kind_body
  have hunder : ¬ made.2.Under body made.1 := hgrown.not_under hu hbody hdrafted.new
  obtain ⟨hchanged, before, rest, hbefore, hchildren, hlast⟩ :=
    hgrown.wellFormed.changed_insertUnder (Nat.lt_of_lt_of_le hbody hgrown.size_le)
      hdrafted.built.lt_size hdrafted.free hunder (after.bind (·.node? created))
  rw [← hv] at hchanged hchildren
  -- the blank goes behind the statement
  have hgrow : v.Grown [] (v.push (.blank "\n")) := .push (.refl hchanged.wellFormed) _
  have hpush : v.Changed body (v.push (.blank "\n")) := hgrow.changed
  have hbodyv : body < v.size := by
    have := hgrown.size_le
    have := hchanged.size_le
    lia
  have hfree : (v.push (.blank "\n")).parent v.size = none := by
    rw [Tree.parent_push, Tree.parent_of_le (Nat.le_refl _)]
  have hpunder : ¬ (v.push (.blank "\n")).Under body v.size := fun hunder =>
    absurd (hpush.wellFormed.eq_of_under (Tree.children_push_new ..) hunder) (Nat.ne_of_lt hbodyv)
  have hpchildren : (v.push (.blank "\n")).children body = before ++ made.1 :: rest := by
    simpa using hchildren
  obtain ⟨hlastChanged, hlastChildren⟩ := hpush.wellFormed.changed_insertAfter
    (Nat.lt_of_lt_of_le hbodyv hpush.size_le) (by simp) hfree hpunder hpchildren
  rw [← hw] at hlastChanged hlastChildren
  have hfrom := (hchanged.trans hpush).trans hlastChanged
  have hall : u.Changed body w := hgrown.changed.trans hfrom
  refine ⟨h.kept_of_changed hu hall (.inr rfl),
    .addAssignment hdrafted.new (Nat.le_trans hgrown.size_le hchanged.size_le) ?_ ?_
      (hfrom.storeParts hstore hblock) ?_ ?_⟩
  · exact hall.children_eq hlist (h.list_ne_body hu)
  · rw [hgrown.children_eq hbody] at hbefore hlast
    exact ⟨before, rest, hbefore, by simpa using hlastChildren, hlast⟩
  · rw [hlastChanged.kind_eq (by simp), Tree.kind_push, if_pos rfl]
  · exact fun q hq => h.writtenType?_of_changed hu hall (.inr rfl) hq

/-- **What an edit does** to the parameters and the statements. -/
theorem effect_step {e : Edit} (he : e.Supplies u list body) :
    u.Kept list body (step (created, u) e).2 ∧
      Effect list body created u e (step (created, u) e).1 (step (created, u) e).2 := by
  cases e with
  | retype p type =>
      have heq : (step (created, u) (.retype p type)).1 = created := List.append_nil _
      rw [heq]
      exact effect_retype h hu created he type
  | addParameter l after name type =>
      obtain rfl : l = list := he
      exact effect_addParameter h hu created after name type rfl
  | addAssignment c after receiver field =>
      obtain rfl : c = body := he
      simp only [step, perform, Draft.run_bind, Draft.run_modify, Draft.newline, Draft.blank]
      generalize hmade : (Draft.assignMember receiver field field).run u = made
      exact effect_addAssignment h hu created after receiver field hmade.symm rfl rfl
  | dropStatement _ => exact he.elim
  | dropParameter _ => exact he.elim
  | rename _ _ => exact he.elim

end

theorem foldl_step_dropStatement (ns : List NodeId) (x : List NodeId × Tree) :
    (ns.map dropStatement).foldl step x = (x.1, ns.foldl Tree.dropStatement x.2) := by
  induction ns generalizing x with
  | nil => rfl
  | cons n ns ih =>
      have hstep : step x (.dropStatement n) = (x.1, x.2.dropStatement n) :=
        Prod.ext (List.append_nil _) rfl
      rw [List.map_cons, List.foldl_cons, hstep, ih]
      rfl

end Edit

namespace Tree

variable {u : Tree} {body : NodeId}

theorem WellFormed.foldl_detach (hu : u.WellFormed) (ds : List NodeId) :
    (ds.foldl Tree.detach u).WellFormed := by
  induction ds generalizing u with
  | nil => exact hu
  | cons d ds ih => exact ih (hu.detach d)

/-- Removing a statement takes it out, and with it at most a blank beside it. -/
theorem exists_detach_of_dropStatement (hu : u.WellFormed) (n : NodeId) :
    ∃ gone : List NodeId, u.dropStatement n = gone.foldl detach u ∧ n ∈ gone ∧
      ∀ g ∈ gone, (g = n ∨ (u.kind g).isBlank = true) ∧ u.parent g = u.parent n := by
  unfold dropStatement
  split
  · next blank hblank =>
    obtain ⟨hnext, hkind⟩ := Option.filter_eq_some_iff.mp hblank
    obtain ⟨p, hp, hchild⟩ := exists_parent_of_next? hnext
    refine ⟨[blank, n], rfl, by simp, ?_⟩
    intro g hg
    rcases List.mem_pair.mp hg with rfl | rfl
    · exact ⟨.inr hkind, (hu.mem_children_iff.mp hchild).trans hp.symm⟩
    · exact ⟨.inl rfl, rfl⟩
  · refine ⟨[n], rfl, by simp, fun g hg => ?_⟩
    obtain rfl := List.mem_singleton.mp hg
    exact ⟨.inl rfl, rfl⟩

/-- Removing statements takes them out, and besides only blanks beside them. -/
theorem exists_detach_of_foldl (hu : u.WellFormed) (ns : List NodeId) :
    ∃ gone : List NodeId, ns.foldl dropStatement u = gone.foldl detach u ∧ (∀ n ∈ ns, n ∈ gone) ∧
      ∀ g ∈ gone, (g ∈ ns ∨ (u.kind g).isBlank = true) ∧
        ∀ p, u.parent g = some p → ∃ n ∈ ns, u.parent n = some p := by
  induction ns generalizing u with
  | nil => exact ⟨[], rfl, by simp, fun g hg => absurd hg List.not_mem_nil⟩
  | cons n ns ih =>
      obtain ⟨here, heq, hmem, hhere⟩ := exists_detach_of_dropStatement hu n
      -- what hangs somewhere after the removal has hung there before
      obtain ⟨-, -, hview⟩ := foldl_detach hu here
      have hparent {m p : NodeId} (hm : (here.foldl detach u).parent m = some p) :
          u.parent m = some p := by
        rw [(hview m).2.1] at hm
        exact (Option.ite_none_left_eq_some.mp hm).2
      obtain ⟨gone, hgone, hall, hcases⟩ := ih (hu.foldl_detach here)
      refine ⟨here ++ gone, ?_, ?_, fun g hg => ?_⟩
      · rw [List.foldl_cons, heq, hgone, List.foldl_append]
      · intro m hm
        rcases List.mem_cons.mp hm with rfl | hm
        · exact List.mem_append_left _ hmem
        · exact List.mem_append_right _ (hall m hm)
      · by_cases hin : g ∈ here
        · obtain ⟨hkind, hsame⟩ := hhere g hin
          refine ⟨hkind.imp_left (by simp +contextual), fun p hp => ?_⟩
          exact ⟨n, List.mem_cons_self, hsame ▸ hp⟩
        · obtain ⟨hkind, hplace⟩ := hcases g ((List.mem_append.mp hg).resolve_left hin)
          rw [(hview g).1] at hkind
          rw [(hview g).2.1, if_neg hin] at hplace
          refine ⟨hkind.imp_left (List.mem_cons_of_mem n), fun p hp => ?_⟩
          obtain ⟨m, hm, hmp⟩ := hplace p hp
          exact ⟨m, List.mem_cons_of_mem n hm, hparent hmp⟩

/-- **Removing statements of a block** takes them out, and besides only blanks of the block. -/
theorem exists_gone (hu : u.WellFormed) {ns : List NodeId} (hns : ∀ n ∈ ns, n ∈ u.children body) :
    ∃ gone : List NodeId, u.Changed body (ns.foldl dropStatement u) ∧
      (ns.foldl dropStatement u).children body = (u.children body).filter (· ∉ gone) ∧
      (∀ n ∈ ns, n ∈ gone) ∧ ∀ g ∈ gone, g ∈ ns ∨ (u.kind g).isBlank = true := by
  obtain ⟨gone, heq, hall, hgone⟩ := exists_detach_of_foldl hu ns
  obtain ⟨hsize, -, hview⟩ := foldl_detach hu gone
  rw [heq]
  refine ⟨gone, ⟨hu.foldl_detach gone, Nat.le_of_eq hsize.symm, fun _ => (hview _).1, ?_⟩,
    (hview body).2.2, hall, fun g hg => (hgone g hg).1⟩
  intro n _ hne
  rw [(hview n).2.2, List.filter_eq_self]
  intro c hc
  have hnot : c ∉ gone := fun hin => by
    obtain ⟨m, hm, hmn⟩ := (hgone c hin).2 n (hu.mem_children_iff.mp hc)
    exact hne (Option.some.inj (hmn.symm.trans (hu.mem_children_iff.mp (hns m hm))))
  simpa using hnot

end Tree

end ComponentAudit
