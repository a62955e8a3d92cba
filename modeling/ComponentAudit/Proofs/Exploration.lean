import Mathlib.Logic.Relation
import Mathlib.Tactic

set_option autoImplicit false

/-! # Explorations

A search that keeps a list of pending items and remembers the nodes it has seen. It takes the first
pending item, passes it over when it stands for no node or for one seen before, and otherwise puts
the items that follow from the node in front of the others. A node may also hold the answer, which
ends the search.

Nothing bounds the number of steps, and the items may follow from each other in circles, so the
search is a least fixed point with an answer only where it ends (`Exploration.run`).

Main statement: `Exploration.exists_run`. When only finitely many nodes can be reached, the search
ends. Each step lowers the number of pending items together with those that the unseen nodes can
still add. It finds an answer if some node that can be reached holds one, and otherwise it has seen
exactly the nodes that can be reached.
-/

namespace ComponentAudit

/-- What a search needs to know about its items and nodes. -/
structure Exploration (ι ν α : Type) where
  /-- The node that an item stands for. -/
  node : ι → Option ν
  /-- The answer that a node holds. -/
  hit : ν → Option α
  /-- The items that follow from a node, the first one to be looked at first. -/
  next : ν → List ι

namespace Exploration

variable {ι ν α : Type}

/-- Whether an item follows from the node of another one. -/
def Leads (e : Exploration ι ν α) (x y : ι) : Prop := ∃ d, e.node x = some d ∧ y ∈ e.next d

/-- Whether a node can be reached from one of some items. -/
def Reaches (e : Exploration ι ν α) (starts : List ι) (d : ν) : Prop :=
  ∃ x ∈ starts, ∃ y, Relation.ReflTransGen e.Leads x y ∧ e.node y = some d

variable {e : Exploration ι ν α} {starts pending rest : List ι} {seen all : List ν} {x : ι} {d : ν}

/-! ## The invariant -/

/-- Whether an item has nothing to add to the nodes seen: it stands for one of them or for none. -/
def Settled (e : Exploration ι ν α) (seen : List ν) (x : ι) : Prop :=
  ∀ d, e.node x = some d → d ∈ seen

/-- A search on its way: what was seen or is pending can be reached, every item that follows from
what was seen is pending or settled, and no answer was passed over. -/
structure Underway (e : Exploration ι ν α) (starts : List ι) (seen : List ν)
    (pending : List ι) : Prop where
  pending_reached : ∀ x ∈ pending, ∃ s ∈ starts, Relation.ReflTransGen e.Leads s x
  seen_reached : ∀ d ∈ seen, e.Reaches starts d
  starts_settled : ∀ x ∈ starts, x ∈ pending ∨ e.Settled seen x
  next_settled : ∀ d ∈ seen, ∀ x ∈ e.next d, x ∈ pending ∨ e.Settled seen x
  missed : ∀ d ∈ seen, e.hit d = none

theorem underway_start (e : Exploration ι ν α) (starts : List ι) : e.Underway starts [] starts where
  pending_reached x hx := ⟨x, hx, .refl⟩
  seen_reached _ hd := absurd hd List.not_mem_nil
  starts_settled _ hx := .inl hx
  next_settled _ hd := absurd hd List.not_mem_nil
  missed _ hd := absurd hd List.not_mem_nil

namespace Underway

theorem reaches (h : e.Underway starts seen (x :: rest)) (hx : e.node x = some d) :
    e.Reaches starts d := by
  obtain ⟨s, hs, hreach⟩ := h.pending_reached x List.mem_cons_self
  exact ⟨s, hs, x, hreach, hx⟩

/-- An item that has nothing to add can be passed over. -/
theorem pass (h : e.Underway starts seen (x :: rest)) (hx : e.Settled seen x) :
    e.Underway starts seen rest := by
  have hkeep {y : ι} (hy : y ∈ x :: rest ∨ e.Settled seen y) : y ∈ rest ∨ e.Settled seen y := by
    rcases hy with hy | hy
    · rcases List.mem_cons.mp hy with rfl | hy
      · exact .inr hx
      · exact .inl hy
    · exact .inr hy
  exact {
    pending_reached := fun y hy => h.pending_reached y (List.mem_cons_of_mem _ hy)
    seen_reached := h.seen_reached
    starts_settled := fun y hy => hkeep (h.starts_settled y hy)
    next_settled := fun d hd y hy => hkeep (h.next_settled d hd y hy)
    missed := h.missed }

/-- A new node without an answer is seen, and the items that follow from it become pending. -/
theorem visit (h : e.Underway starts seen (x :: rest)) (hx : e.node x = some d)
    (hmiss : e.hit d = none) : e.Underway starts (d :: seen) (e.next d ++ rest) := by
  have hkeep {y : ι} (hy : y ∈ x :: rest ∨ e.Settled seen y) :
      y ∈ e.next d ++ rest ∨ e.Settled (d :: seen) y := by
    rcases hy with hy | hy
    · rcases List.mem_cons.mp hy with rfl | hy
      · right
        intro d' hd'
        obtain rfl : d = d' := Option.some.inj (hx.symm.trans hd')
        exact List.mem_cons_self
      · exact .inl (List.mem_append_right _ hy)
    · exact .inr fun d' hd' => List.mem_cons_of_mem _ (hy d' hd')
  refine ⟨?_, ?_, fun y hy => hkeep (h.starts_settled y hy), ?_, ?_⟩
  · intro y hy
    rcases List.mem_append.mp hy with hy | hy
    · obtain ⟨s, hs, hreach⟩ := h.pending_reached x List.mem_cons_self
      exact ⟨s, hs, hreach.tail ⟨d, hx, hy⟩⟩
    · exact h.pending_reached y (List.mem_cons_of_mem _ hy)
  · intro d' hd'
    rcases List.mem_cons.mp hd' with rfl | hd'
    · exact h.reaches hx
    · exact h.seen_reached d' hd'
  · intro d' hd' y hy
    rcases List.mem_cons.mp hd' with rfl | hd'
    · exact .inl (List.mem_append_left _ hy)
    · exact hkeep (h.next_settled d' hd' y hy)
  · intro d' hd'
    rcases List.mem_cons.mp hd' with rfl | hd'
    · exact hmiss
    · exact h.missed d' hd'

/-- When nothing is pending, what was seen is what can be reached. -/
theorem mem_seen_iff (h : e.Underway starts seen []) : d ∈ seen ↔ e.Reaches starts d := by
  refine ⟨h.seen_reached d, ?_⟩
  rintro ⟨s, hs, y, hreach, hy⟩
  -- all items on the way are settled, since those seen are closed under the items that follow
  have hsettled : e.Settled seen y := by
    clear hy
    induction hreach with
    | refl => exact (h.starts_settled s hs).resolve_left List.not_mem_nil
    | tail _ hstep ih =>
        obtain ⟨d', hd', hnext⟩ := hstep
        exact (h.next_settled d' (ih d' hd') _ hnext).resolve_left List.not_mem_nil
  exact hsettled d hy

end Underway

/-! ## The search -/

variable [DecidableEq ν]

/-- The search: the nodes seen when it ends, and the answer if it found one. -/
def run (e : Exploration ι ν α) (seen : List ν) (pending : List ι) :
    Option (List ν × Option α) :=
  match pending with
  | [] => some (seen, none)
  | x :: rest =>
    match e.node x with
    | none => e |>.run seen rest
    | some d =>
      if d ∈ seen then e |>.run seen rest
      else
        match e.hit d with
        | some a => some (d :: seen, some a)
        | none => e |>.run (d :: seen) (e.next d ++ rest)
partial_fixpoint

theorem run_nil : e.run seen [] = some (seen, none) := by rw [run]

theorem run_of_settled (h : e.Settled seen x) : e.run seen (x :: rest) = e.run seen rest := by
  rw [run]
  cases hx : e.node x with
  | none => rfl
  | some d => simp only [if_pos (h d hx)]

theorem run_of_hit (hx : e.node x = some d) (hd : d ∉ seen) {a : α} (ha : e.hit d = some a) :
    e.run seen (x :: rest) = some (d :: seen, some a) := by
  rw [run, hx]
  simp only [if_neg hd, ha]

theorem run_of_miss (hx : e.node x = some d) (hd : d ∉ seen) (hmiss : e.hit d = none) :
    e.run seen (x :: rest) = e.run (d :: seen) (e.next d ++ rest) := by
  rw [run, hx]
  simp only [if_neg hd, hmiss]

/-! ## What is left to do -/

/-- How many items the nodes of a list that were not seen can still add. -/
def load (e : Exploration ι ν α) (all seen : List ν) : Nat :=
  (all.filter (· ∉ seen)).foldr (fun d n => (e.next d).length + n) 0

theorem load_cons (d : ν) (all seen : List ν) : e.load (d :: all) seen =
    (if d ∈ seen then 0 else (e.next d).length) + e.load all seen := by
  by_cases hd : d ∈ seen <;> simp [load, hd]

/-- Nodes that were seen add nothing. -/
theorem load_le_of_seen (d : ν) : e.load all (d :: seen) ≤ e.load all seen := by
  induction all with
  | nil => exact Nat.le_refl _
  | cons y ys ih =>
      rw [load_cons, load_cons]
      by_cases hy : y ∈ seen
      · rw [if_pos hy, if_pos (List.mem_cons_of_mem _ hy)]
        omega
      · rw [if_neg hy]
        split <;> omega

/-- A node adds its items when it is seen, and none later. -/
theorem load_visit_le (hall : d ∈ all) (hd : d ∉ seen) :
    (e.next d).length + e.load all (d :: seen) ≤ e.load all seen := by
  induction all with
  | nil => cases hall
  | cons y ys ih =>
      rw [load_cons, load_cons]
      by_cases hy : y = d
      · have hrest : e.load ys (d :: seen) ≤ e.load ys seen := load_le_of_seen d
        rw [hy, if_neg hd, if_pos List.mem_cons_self]
        omega
      · have hrest := ih ((List.mem_cons.mp hall).resolve_left (Ne.symm hy))
        have hiff : y ∈ d :: seen ↔ y ∈ seen := by simp [hy]
        simp only [hiff]
        omega

/-! ## Whole runs -/

/-- What a search that has ended tells: an answer comes from a node that can be reached, and without
an answer exactly the nodes that can be reached were seen, none of which holds one. -/
inductive Outcome (e : Exploration ι ν α) (starts : List ι) : List ν → Option α → Prop
  | found {seen : List ν} {d : ν} {a : α} (hd : e.Reaches starts d) (ha : e.hit d = some a) :
      Outcome e starts seen (some a)
  | exhausted {seen : List ν} (hseen : ∀ d, d ∈ seen ↔ e.Reaches starts d)
      (hmiss : ∀ d, e.Reaches starts d → e.hit d = none) : Outcome e starts seen none

/-- From every state on its way a search ends. -/
theorem Underway.exists_run (h : e.Underway starts seen pending)
    (hall : ∀ d, e.Reaches starts d → d ∈ all) :
    ∃ seen' r, e.run seen pending = some (seen', r) ∧ e.Outcome starts seen' r := by
  -- every step lowers the number of pending items and of those that can still be added
  induction hn : e.load all seen + pending.length using Nat.strong_induction_on
    generalizing seen pending with
  | h n ih =>
    cases pending with
    | nil =>
        refine ⟨seen, none, run_nil, .exhausted (fun d => h.mem_seen_iff) fun d hd => ?_⟩
        exact h.missed d (h.mem_seen_iff.mpr hd)
    | cons x rest =>
        rw [List.length_cons] at hn
        by_cases hx : e.Settled seen x
        · rw [run_of_settled hx]
          exact ih _ (by omega) (h.pass hx) rfl
        · obtain ⟨d, hd, hnew⟩ : ∃ d, e.node x = some d ∧ d ∉ seen := by
            simpa [Settled] using hx
          have hreach := h.reaches hd
          cases ha : e.hit d with
          | some a => exact ⟨_, _, run_of_hit hd hnew ha, .found hreach ha⟩
          | none =>
              have hload : (e.next d).length + e.load all (d :: seen) ≤ e.load all seen :=
                load_visit_le (hall d hreach) hnew
              rw [run_of_miss hd hnew ha]
              refine ih _ ?_ (h.visit hd ha) rfl
              rw [List.length_append]
              omega

/-- **A search through finitely many nodes ends**, whatever circles there are, with an answer if
some node that can be reached holds one. -/
theorem exists_run (hall : ∀ d, e.Reaches starts d → d ∈ all) :
    ∃ seen r, e.run [] starts = some (seen, r) ∧ e.Outcome starts seen r :=
  (e.underway_start starts).exists_run hall

end Exploration

end ComponentAudit
