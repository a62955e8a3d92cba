import ComponentAudit.Assign.State
import ComponentAudit.Proofs.Tree.WellFormed

set_option autoImplicit false

/-! # What is known of one of several writes

When paths come together, what is known of the write to a field is put together two writes at a
time. Main statement: `Assignment.Sums.meet`. Whatever the order in which it was put together,
the result says of all the writes: which parameter all of them store, and which node is the
nearest around all of them.
-/

namespace ComponentAudit

namespace Assigned

theorem get?_congr (m : Assigned) {f g : Field} (h : f.decl = g.decl) : m.get? f = m.get? g := by
  simp [get?, h]

/-- What remains assigned when two paths come together. -/
theorem get?_meet (t : Tree) (m other : Assigned) (f : Field) :
    (m.meet t other).get? f
      = (m.get? f).bind fun a => (other.get? f).map fun b => a.meet t b := by
  induction m with
  | nil => rfl
  | cons e m ih =>
      obtain ⟨g, a⟩ := e
      have hcons : meet t ((g, a) :: m) other
          = ((other.get? g).map fun b => (g, a.meet t b)).toList ++ meet t m other := by
        unfold meet
        cases h : other.get? g <;> simp [h]
      rw [hcons, get?_cons]
      by_cases hg : g.decl = f.decl
      · rw [if_pos hg, other.get?_congr hg]
        cases hf : other.get? f with
        | none => simpa [hf] using ih
        | some b => simp [get?_cons, hg]
      · rw [if_neg hg, ← ih]
        cases other.get? g with
        | none => rfl
        | some b => simp [get?_cons, hg]

end Assigned

namespace Origin

theorem meet_eq_parameter_iff {a b : Origin} {p : NodeId} :
    a.meet b = .parameter p ↔ a = .parameter p ∧ b = .parameter p := by
  unfold meet
  constructor
  · intro h
    split at h
    next hab => exact ⟨h, hab ▸ h⟩
    next => cases h
  · rintro ⟨rfl, rfl⟩
    simp

end Origin

namespace Assignment

/-- Whether a node is around all of some writes, which then all have a place. -/
def Around (t : Tree) (W : Set Assignment) (c : NodeId) : Prop :=
  ∀ a ∈ W, ∃ x, a.anchor = some x ∧ t.Under x c

/-- What is known of a write that is one of several: its origin is a parameter when that is the
origin of all of them, and its place is the nearest node around all of them. -/
structure Sums (t : Tree) (W : Set Assignment) (a : Assignment) : Prop where
  origin : ∀ p, a.origin = .parameter p ↔ ∀ b ∈ W, b.origin = .parameter p
  around : ∀ c, a.anchor = some c → Around t W c
  nearest : ∀ d, Around t W d → ∃ c, a.anchor = some c ∧ t.Under c d

theorem Sums.single (t : Tree) (a : Assignment) : Sums t {a} a where
  origin := by simp
  around := by
    rintro c hc _ rfl
    exact ⟨c, hc, .refl⟩
  nearest := fun d hd => hd a rfl

/-- Two sums give the sum of all the writes. -/
theorem Sums.meet {t : Tree} (ht : t.WellFormed) {V W : Set Assignment} {a b : Assignment}
    (ha : Sums t V a) (hb : Sums t W b) : Sums t (V ∪ W) (a.meet t b) where
  origin := by
    intro p
    rw [show (a.meet t b).origin = a.origin.meet b.origin from rfl, Origin.meet_eq_parameter_iff,
      ha.origin, hb.origin]
    constructor
    · rintro ⟨hv, hw⟩ x (hx | hx)
      · exact hv x hx
      · exact hw x hx
    · intro h
      exact ⟨fun x hx => h x (.inl hx), fun x hx => h x (.inr hx)⟩
  around := by
    intro c hc
    unfold Assignment.meet at hc
    cases hx : a.anchor with
    | none => simp [hx] at hc
    | some x =>
        cases hy : b.anchor with
        | none => simp [hx, hy] at hc
        | some y =>
            simp only [hx, hy] at hc
            obtain ⟨hxc, hyc, -⟩ := ht.commonAncestor?_spec hc
            rintro w (hw | hw)
            · obtain ⟨z, hz, hzx⟩ := ha.around x hx w hw
              exact ⟨z, hz, hzx.trans hxc⟩
            · obtain ⟨z, hz, hzy⟩ := hb.around y hy w hw
              exact ⟨z, hz, hzy.trans hyc⟩
  nearest := by
    intro d hd
    obtain ⟨x, hx, hxd⟩ := ha.nearest d fun w hw => hd w (.inl hw)
    obtain ⟨y, hy, hyd⟩ := hb.nearest d fun w hw => hd w (.inr hw)
    simp only [Assignment.meet, hx, hy]
    cases hc : t.commonAncestor? x y with
    | none => exact absurd hyd (ht.commonAncestor?_eq_none_iff.mp hc d hxd)
    | some c => exact ⟨c, rfl, (ht.commonAncestor?_spec hc).2.2 d hxd hyd⟩

end Assignment

end ComponentAudit
