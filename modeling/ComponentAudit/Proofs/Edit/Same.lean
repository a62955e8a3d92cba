import ComponentAudit.Proofs.Assign.Straight

set_option autoImplicit false

/-! # Subtrees that stay as they are

Two trees are the same below a node when everything under it has the same kind and the same children
in both (`Tree.SameBelow`). What the accessors find below such a node is then the same as well.
-/

namespace ComponentAudit.Tree

/-- Whether everything under a node of one tree is the same in another. -/
def SameBelow (t u : Tree) (x : NodeId) : Prop :=
  ∀ y, t.Under y x → u.kind y = t.kind y ∧ u.children y = t.children y

namespace SameBelow

variable {t u v : Tree} {x : NodeId}

theorem refl : t.SameBelow t x := fun _ _ => ⟨rfl, rfl⟩

section

variable (h : t.SameBelow u x)

include h

theorem kind_eq : u.kind x = t.kind x := (h x .refl).1

theorem children_eq : u.children x = t.children x := (h x .refl).2

theorem of_under {y : NodeId} (hy : t.Under y x) : t.SameBelow u y :=
  fun z hz => h z (hz.trans hy)

variable (ht : t.WellFormed) (hu : u.WellFormed)

include ht

theorem child {c : NodeId} (hc : c ∈ t.children x) : t.SameBelow u c :=
  h.of_under (ht.inside_of_child hc).under

include hu

theorem under_of_under {y : NodeId} (hy : u.Under y x) : t.Under y x := by
  induction hy using Relation.ReflTransGen.head_induction_on with
  | refl => exact .refl
  | head hc _ ih =>
      have hmem := hu.mem_children_iff.mpr hc
      rw [(h _ ih).2] at hmem
      exact .head (ht.mem_children_iff.mp hmem) ih

theorem symm : u.SameBelow t x := by
  intro y hy
  obtain ⟨hkind, hchildren⟩ := h y (h.under_of_under ht hu hy)
  exact ⟨hkind.symm, hchildren.symm⟩

theorem trans (h' : u.SameBelow v x) : t.SameBelow v x := by
  intro y hy
  obtain ⟨hkind, hchildren⟩ := h y hy
  obtain ⟨hkind', hchildren'⟩ := h' y ((h.symm ht hu).under_of_under hu ht hy)
  exact ⟨hkind'.trans hkind, hchildren'.trans hchildren⟩

end

/-! ## What the parts of a construct are -/

section

variable (h : t.SameBelow u x)

include h

theorem operands?_eq : u.operands? x = t.operands? x := by
  rw [operands?, h.kind_eq, h.children_eq, operands?]

theorem form_eq (w : Usage) : u.form w x = t.form w x := by
  unfold form
  rw [h.kind_eq, h.operands?_eq]

theorem referenceName?_eq : u.referenceName? x = t.referenceName? x := by
  rw [referenceName?, h.kind_eq, referenceName?]

variable (ht : t.WellFormed)

include ht

theorem kind_child {c : NodeId} (hc : c ∈ t.children x) : u.kind c = t.kind c :=
  (h.child ht hc).kind_eq

theorem significant_eq : u.significant x = t.significant x := by
  rw [significant, h.children_eq, significant]
  exact List.filter_congr fun c hc => by rw [h.kind_child ht hc]

theorem child?_eq (test : Kind → Bool) : u.child? x test = t.child? x test := by
  rw [child?, h.children_eq, child?]
  exact List.find?_congr fun c hc => by rw [h.kind_child ht hc]

theorem parameterList?_eq : u.parameterList? x = t.parameterList? x := by
  rw [parameterList?, h.kind_eq, h.child?_eq ht, parameterList?]

theorem parameters_eq : u.parameters x = t.parameters x := by
  rw [parameters, h.parameterList?_eq ht, parameters]
  cases hlist : t.parameterList? x with
  | none => rfl
  | some list =>
      obtain ⟨-, hfind⟩ := Option.ite_none_right_eq_some.mp hlist
      have hsame := h.child ht (List.mem_of_find?_eq_some hfind)
      show (u.children list).filter _ = (t.children list).filter _
      rw [hsame.children_eq]
      exact List.filter_congr fun p hp => by rw [hsame.kind_child ht hp]

theorem memberStore?_eq : u.memberStore? x = t.memberStore? x := by
  unfold memberStore?
  rw [h.kind_eq, h.operands?_eq]
  cases ho : t.operands? x with
  | none => rfl
  | some operands =>
      obtain ⟨place, value⟩ := operands
      have hplace := h.child ht (mem_children_of_operands? ho).1
      simp only [Option.bind_eq_bind, Option.bind_some, hplace.kind_eq, hplace.operands?_eq]
      cases hs : t.operands? place with
      | none => rfl
      | some selection =>
          obtain ⟨receiver, selector⟩ := selection
          obtain ⟨hr, hsel⟩ := mem_children_of_operands? hs
          simp only [Option.bind_some, (hplace.child ht hr).referenceName?_eq,
            (hplace.child ht hsel).referenceName?_eq]

theorem storedMember?_eq (base : String) : u.storedMember? base x = t.storedMember? base x := by
  rw [storedMember?, h.memberStore?_eq ht, storedMember?]

end

end SameBelow

end ComponentAudit.Tree
