import ComponentAudit.Flow.Graph
import Mathlib.Tactic

set_option autoImplicit false

/-! # Paths in flow graphs

What the steps that build a graph do to its edges (`preds_connect`, `succs_connect`), the
invariant that they keep (`Flow.Linked`), and paths along edges (`Flow.Path`).

Main statement: `dead_complete_iff`. In a completed graph exactly those instructions are dead
that no path from the entry leads to. The search behind it walks depth first with a bounded
depth; the bound is never met, because every level adds an instruction that was not seen yet.
-/

namespace ComponentAudit.Flow

/-! ## Single instructions -/

theorem getD_modify (xs : Array Instr) (j i : Nat) (g : Instr → Instr) (d : Instr) :
    (xs.modify j g).getD i d = if i = j ∧ i < xs.size then g (xs.getD i d) else xs.getD i d := by
  simp only [Array.getD_eq_getD_getElem?, Array.getElem?_modify]
  by_cases hi : i < xs.size
  · by_cases h : j = i
    · simp [h, hi]
    · simp [h, Ne.symm h]
  · by_cases h : j = i <;> simp [h, hi]

theorem instr_eq_default {f : Flow} {i : InstrId} (h : f.size ≤ i) :
    f.instr i = { op := .eval } := by
  simp [instr, Array.getD_eq_getD_getElem?, Array.getElem?_eq_none h]

@[simp] theorem op_connect (f : Flow) (start stop i : InstrId) :
    ((f.connect start stop).instr i).op = (f.instr i).op := by
  simp only [instr, connect, getD_modify]
  split <;> split <;> rfl

@[simp] theorem element_connect (f : Flow) (start stop i : InstrId) :
    ((f.connect start stop).instr i).element = (f.instr i).element := by
  simp only [instr, connect, getD_modify]
  split <;> split <;> rfl

theorem preds_connect (f : Flow) {start stop : InstrId} (h : stop < f.size) (i : InstrId) :
    (f.connect start stop).preds i =
      if i = stop then addOnce (f.preds i) start else f.preds i := by
  have h' : stop < f.instrs.size := h
  simp only [preds, instr, connect, getD_modify, Array.size_modify]
  by_cases hi : i = stop
  · rw [if_pos ⟨hi, hi ▸ h'⟩, if_pos hi]
    split <;> rfl
  · rw [if_neg fun h => hi h.1, if_neg hi]
    split <;> rfl

theorem succs_connect (f : Flow) {start stop : InstrId} (h : start < f.size) (i : InstrId) :
    (f.connect start stop).succs i =
      if i = start then addOnce (f.succs i) stop else f.succs i := by
  have h' : start < f.instrs.size := h
  simp only [succs, instr, connect, getD_modify, Array.size_modify]
  by_cases hi : i = start
  · simp only [if_pos (And.intro hi (hi ▸ h')), if_pos hi]
    split <;> rfl
  · have hn : ¬(i = start ∧ i < f.instrs.size) := fun h => hi h.1
    simp only [if_neg hn, if_neg hi]
    split <;> rfl

/-- A new instruction has no edges, and neither has a number without an instruction. -/
@[simp] theorem preds_push (f : Flow) (op : Op) (element : Option NodeId) (i : InstrId) :
    (f.push op element).preds i = f.preds i := by
  rw [preds, instr_push]
  split
  · next h => rw [preds, instr_eq_default (Nat.le_of_eq h.symm)]
  · rfl

@[simp] theorem succs_push (f : Flow) (op : Op) (element : Option NodeId) (i : InstrId) :
    (f.push op element).succs i = f.succs i := by
  rw [succs, instr_push]
  split
  · next h => rw [succs, instr_eq_default (Nat.le_of_eq h.symm)]
  · rfl

theorem instr_complete (f : Flow) (entry sink : InstrId) {i : InstrId} (h : i < f.size) :
    (f.complete entry sink).instr i =
      { f.instr i with dead := decide (i ∉ f.reachable entry) } := by
  have h' : i < f.instrs.size := h
  simp [instr, complete, Array.getD_eq_getD_getElem?, h']

theorem instr_complete_of_le (f : Flow) (entry sink : InstrId) {i : InstrId} (h : f.size ≤ i) :
    (f.complete entry sink).instr i = f.instr i := by
  rw [instr_eq_default h, instr_eq_default (by rwa [size_complete])]

@[simp] theorem op_complete (f : Flow) (entry sink i : InstrId) :
    ((f.complete entry sink).instr i).op = (f.instr i).op := by
  rcases Nat.lt_or_ge i f.size with h | h
  · rw [instr_complete f entry sink h]
  · rw [instr_complete_of_le f entry sink h]

@[simp] theorem element_complete (f : Flow) (entry sink i : InstrId) :
    ((f.complete entry sink).instr i).element = (f.instr i).element := by
  rcases Nat.lt_or_ge i f.size with h | h
  · rw [instr_complete f entry sink h]
  · rw [instr_complete_of_le f entry sink h]

@[simp] theorem preds_complete (f : Flow) (entry sink i : InstrId) :
    (f.complete entry sink).preds i = f.preds i := by
  rcases Nat.lt_or_ge i f.size with h | h
  · rw [preds, instr_complete f entry sink h, preds]
  · rw [preds, instr_complete_of_le f entry sink h, preds]

@[simp] theorem succs_complete (f : Flow) (entry sink i : InstrId) :
    (f.complete entry sink).succs i = f.succs i := by
  rcases Nat.lt_or_ge i f.size with h | h
  · rw [succs, instr_complete f entry sink h, succs]
  · rw [succs, instr_complete_of_le f entry sink h, succs]

/-! ## Edges known at both ends -/

/-- Every edge is entered at both of its ends, and both are instructions of the graph. -/
structure Linked (f : Flow) : Prop where
  mem_iff : ∀ {a b : InstrId}, b ∈ f.succs a ↔ a ∈ f.preds b
  lt_size : ∀ {a b : InstrId}, a ∈ f.preds b → a < f.size

theorem lt_size_of_mem_preds {f : Flow} {a b : InstrId} (h : a ∈ f.preds b) : b < f.size := by
  refine Nat.lt_of_not_le fun hb => ?_
  simp [preds, instr_eq_default hb] at h

theorem linked_empty (owner : NodeId) : Linked { owner } where
  mem_iff := by simp [preds, succs, instr]
  lt_size := by simp [preds, instr]

theorem Linked.push {f : Flow} (h : f.Linked) (op : Op) (element : Option NodeId) :
    (f.push op element).Linked where
  mem_iff := by
    intro a b
    rw [succs_push, preds_push]
    exact h.mem_iff
  lt_size := by
    intro a b hab
    rw [preds_push] at hab
    rw [size_push]
    exact Nat.lt_succ_of_lt (h.lt_size hab)

theorem Linked.connect {f : Flow} (h : f.Linked) {start stop : InstrId} (hs : start < f.size)
    (ht : stop < f.size) : (f.connect start stop).Linked where
  mem_iff := by
    intro a b
    rw [succs_connect f hs, preds_connect f ht]
    by_cases ha : a = start
    · by_cases hb : b = stop
      · simp [ha, hb, h.mem_iff]
      · simp [ha, hb, h.mem_iff]
    · by_cases hb : b = stop
      · simp [ha, hb, h.mem_iff]
      · simp [ha, hb, h.mem_iff]
  lt_size := by
    intro a b hab
    rw [preds_connect f ht] at hab
    rw [size_connect]
    split at hab
    · rcases mem_addOnce.mp hab with hab | rfl
      · exact h.lt_size hab
      · exact hs
    · exact h.lt_size hab

/-! ## Paths -/

/-- The instructions on a path along the edges, its two ends included. -/
inductive Path (f : Flow) : InstrId → List InstrId → InstrId → Prop
  | stop (i : InstrId) : Path f i [i] i
  | step {i j k : InstrId} {p : List InstrId} :
      j ∈ f.succs i → Path f j p k → Path f i (i :: p) k

theorem Path.append {f : Flow} {i j k : InstrId} {p q : List InstrId} (hp : f.Path i p j)
    (hq : f.Path j (j :: q) k) : f.Path i (p ++ q) k := by
  induction hp with
  | stop i => exact hq
  | step h _ ih => exact .step h (ih hq)

theorem Path.last_mem {f : Flow} {i k : InstrId} {p : List InstrId} (hp : f.Path i p k) :
    k ∈ p := by
  induction hp with
  | stop i => exact List.mem_singleton_self i
  | step _ _ ih => exact List.mem_cons_of_mem _ ih

/-- A path is a chain of edges between its ends. -/
theorem path_iff {f : Flow} {i k : InstrId} {p : List InstrId} : f.Path i p k ↔
    p.head? = some i ∧ p.getLast? = some k ∧ p.IsChain fun a b => b ∈ f.succs a := by
  constructor
  · intro hp
    induction hp with
    | stop i => simp
    | @step i j k p h hp ih =>
        obtain ⟨hhead, hlast, hchain⟩ := ih
        obtain ⟨q, rfl⟩ := List.head?_eq_some_iff.mp hhead
        exact ⟨rfl, by simpa using hlast, .cons_cons h hchain⟩
  · rintro ⟨hhead, hlast, hchain⟩
    induction p generalizing i with
    | nil => cases hhead
    | cons x p ih =>
        obtain rfl : x = i := Option.some.inj hhead
        cases hchain with
        | singleton =>
            obtain rfl : x = k := Option.some.inj hlast
            exact .stop x
        | cons_cons h hchain => exact .step h (ih rfl (by simpa using hlast) hchain)

instance {f : Flow} {i k : InstrId} {p : List InstrId} : Decidable (f.Path i p k) :=
  decidable_of_iff _ path_iff.symm

/-- The part of a path up to one of its instructions. -/
theorem Path.upTo {f : Flow} {i k x : InstrId} {p : List InstrId} (hp : f.Path i p k)
    (hx : x ∈ p) : ∃ q, f.Path i q x ∧ q <+: p := by
  induction hp with
  | stop i =>
      rw [List.mem_singleton] at hx
      subst hx
      exact ⟨[x], .stop x, List.prefix_refl _⟩
  | @step i j k p h _ ih =>
      rcases List.mem_cons.mp hx with rfl | hx
      · exact ⟨[x], .stop x, by simp⟩
      · obtain ⟨q, hq, hpre⟩ := ih hx
        exact ⟨i :: q, .step h hq, List.cons_prefix_cons.mpr ⟨rfl, hpre⟩⟩

/-- A path is a single instruction or has a last edge. -/
theorem Path.lastEdge {f : Flow} {i k : InstrId} {p : List InstrId} (hp : f.Path i p k) :
    (k = i ∧ p = [i]) ∨ ∃ q j, f.Path i q j ∧ k ∈ f.succs j ∧ p = q ++ [k] := by
  induction hp with
  | stop i => exact .inl ⟨rfl, rfl⟩
  | @step i j k p h _ ih =>
      rcases ih with ⟨rfl, rfl⟩ | ⟨q, l, hq, hl, rfl⟩
      · exact .inr ⟨[i], i, .stop i, h, rfl⟩
      · exact .inr ⟨i :: q, l, .step h hq, hl, rfl⟩

/-- A path that starts outside a set and ends inside it has an edge that enters the set. -/
theorem Path.enters {f : Flow} {i k : InstrId} {p : List InstrId} (hp : f.Path i p k)
    (S : InstrId → Prop) (hi : ¬ S i) (hk : S k) :
    ∃ q x y, f.Path i q x ∧ y ∈ f.succs x ∧ ¬ S x ∧ S y ∧ q <+: p := by
  induction hp with
  | stop i => exact absurd hk hi
  | @step i j k p h _ ih =>
      by_cases hj : S j
      · exact ⟨[i], i, j, .stop i, h, hi, hj, by simp⟩
      · obtain ⟨q, x, y, hq, hy, hx, hS, hpre⟩ := ih hj hk
        exact ⟨i :: q, x, y, .step h hq, hy, hx, hS, List.cons_prefix_cons.mpr ⟨rfl, hpre⟩⟩

/-- Where a path can lead. -/
def Reaches (f : Flow) (i k : InstrId) : Prop := ∃ p, f.Path i p k

/-! ## Dead instructions -/

/-- What one call of the search adds to the instructions seen before: the start, and nothing
that it does not lead to. What is added is closed under edges, except that the instructions
seen before may still be waiting for theirs. -/
structure Search (f : Flow) (starts seen found : List InstrId) : Prop where
  nodup : found.Nodup
  lt_size : ∀ i ∈ found, i < f.size
  subset : seen ⊆ found
  starts_mem : ∀ i ∈ starts, i ∈ found
  closed : ∀ i ∈ found, i ∈ seen ∨ ∀ j ∈ f.succs i, j ∈ found
  reached : ∀ i ∈ found, i ∈ seen ∨ ∃ s ∈ starts, f.Reaches s i

/-- The instructions seen cannot be more than there are. -/
theorem length_le_size {f : Flow} {seen : List InstrId} (hn : seen.Nodup)
    (hlt : ∀ i ∈ seen, i < f.size) : seen.length ≤ f.size := by
  have h : seen.toFinset ⊆ Finset.range f.size := by
    intro i hi
    exact Finset.mem_range.mpr (hlt i (List.mem_toFinset.mp hi))
  calc seen.length = seen.toFinset.card := (List.toFinset_card_of_nodup hn).symm
    _ ≤ (Finset.range f.size).card := Finset.card_le_card h
    _ = f.size := Finset.card_range _

theorem Search.refl {f : Flow} {seen : List InstrId} (hn : seen.Nodup)
    (hlt : ∀ i ∈ seen, i < f.size) : f.Search [] seen seen where
  nodup := hn
  lt_size := hlt
  subset := fun _ h => h
  starts_mem := by simp
  closed := fun _ h => .inl h
  reached := fun _ h => .inl h

/-- Two searches one after the other. -/
theorem Search.trans {f : Flow} {xs ys seen mid found : List InstrId}
    (h₁ : f.Search xs seen mid) (h₂ : f.Search ys mid found) : f.Search (xs ++ ys) seen found where
  nodup := h₂.nodup
  lt_size := h₂.lt_size
  subset := fun _ h => h₂.subset (h₁.subset h)
  starts_mem := by
    intro i hi
    rcases List.mem_append.mp hi with hi | hi
    · exact h₂.subset (h₁.starts_mem i hi)
    · exact h₂.starts_mem i hi
  closed := by
    intro i hi
    rcases h₂.closed i hi with hm | hc
    · rcases h₁.closed i hm with hs | hc
      · exact .inl hs
      · exact .inr fun j hj => h₂.subset (hc j hj)
    · exact .inr hc
  reached := by
    intro i hi
    rcases h₂.reached i hi with hm | ⟨s, hs, hr⟩
    · rcases h₁.reached i hm with h | ⟨s, hs, hr⟩
      · exact .inl h
      · exact .inr ⟨s, List.mem_append_left _ hs, hr⟩
    · exact .inr ⟨s, List.mem_append_right _ hs, hr⟩

/-- A fold of searches over a list is one search from all of its instructions. -/
theorem Search.foldl {f : Flow} {n : Nat} {next : List InstrId → InstrId → List InstrId}
    (hnext : ∀ (seen : List InstrId) (i : InstrId), seen.Nodup → (∀ j ∈ seen, j < f.size) →
      i < f.size → f.size ≤ n + seen.length → f.Search [i] seen (next seen i))
    (js seen : List InstrId) (hn : seen.Nodup) (hlt : ∀ j ∈ seen, j < f.size)
    (hjs : ∀ j ∈ js, j < f.size) (hb : f.size ≤ n + seen.length) :
    f.Search js seen (js.foldl next seen) := by
  induction js generalizing seen with
  | nil => exact Search.refl hn hlt
  | cons j js ih =>
      have h₁ := hnext seen j hn hlt (hjs j List.mem_cons_self) hb
      -- the bound holds for the rest of the list, since nothing that was seen is forgotten
      have hlen : seen.length ≤ (next seen j).length :=
        (List.subperm_of_subset hn h₁.subset).length_le
      have h₂ := ih (next seen j) h₁.nodup h₁.lt_size
        (fun k hk => hjs k (List.mem_cons_of_mem _ hk)) (by omega)
      exact h₁.trans h₂

/-- The search, with a bound that the unseen instructions stay below. -/
theorem search_reachFrom {f : Flow} (hf : f.Linked) (n : Nat) :
    ∀ (seen : List InstrId) (i : InstrId), seen.Nodup → (∀ j ∈ seen, j < f.size) → i < f.size →
      f.size ≤ n + seen.length → f.Search [i] seen (f.reachFrom n seen i) := by
  induction n with
  | zero =>
      intro seen i hn hlt hi hb
      -- all instructions have been seen, this one too
      have hmem : i ∈ seen := by
        by_contra h
        have := length_le_size (f := f) (List.nodup_cons.mpr ⟨h, hn⟩)
          (by simpa using And.intro hi hlt)
        rw [List.length_cons] at this
        omega
      have h := Search.refl hn hlt
      exact { h with starts_mem := by simpa [reachFrom] using hmem
                     reached := fun j hj => .inl hj }
  | succ n ih =>
      intro seen i hn hlt hi hb
      by_cases hmem : i ∈ seen
      · have h := Search.refl hn hlt
        rw [reachFrom, if_pos hmem]
        exact { h with starts_mem := by simpa using hmem
                       reached := fun j hj => .inl hj }
      rw [reachFrom, if_neg hmem]
      have hsucc : ∀ j ∈ f.succs i, j < f.size := fun j hj =>
        lt_size_of_mem_preds (hf.mem_iff.mp hj)
      have h := Search.foldl ih (f.succs i) (i :: seen) (List.nodup_cons.mpr ⟨hmem, hn⟩)
        (by simpa using And.intro hi hlt) hsucc (by rw [List.length_cons]; omega)
      refine ⟨h.nodup, h.lt_size, fun j hj => h.subset (by simp [hj]), ?_, ?_, ?_⟩
      · intro j hj
        rw [List.mem_singleton] at hj
        exact h.subset (by simp [hj])
      · intro j hj
        rcases h.closed j hj with hs | hc
        · rcases List.mem_cons.mp hs with rfl | hs
          · exact .inr h.starts_mem
          · exact .inl hs
        · exact .inr hc
      · intro j hj
        rcases h.reached j hj with hs | ⟨s, hs, p, hp⟩
        · rcases List.mem_cons.mp hs with rfl | hs
          · exact .inr ⟨j, by simp, [j], .stop j⟩
          · exact .inl hs
        · exact .inr ⟨i, by simp, i :: p, .step hs hp⟩

theorem mem_reachable_iff {f : Flow} (hf : f.Linked) {start i : InstrId} (hs : start < f.size) :
    i ∈ f.reachable start ↔ f.Reaches start i := by
  have h := search_reachFrom hf f.size [] start List.nodup_nil (by simp) hs (by simp)
  constructor
  · intro hi
    rcases h.reached i hi with hn | ⟨s, hs, hr⟩
    · simp at hn
    · rw [List.mem_singleton] at hs
      exact hs ▸ hr
  · rintro ⟨p, hp⟩
    -- the instructions found are closed under edges, so no path leads out of them
    by_contra hi
    obtain ⟨q, x, y, -, hxy, hx, hy, -⟩ := hp.enters (· ∉ f.reachable start)
      (not_not.mpr (h.starts_mem start (by simp))) hi
    rcases h.closed x (not_not.mp hx) with hn | hc
    · simp at hn
    · exact hy (hc y hxy)

theorem Path.complete_iff {f : Flow} {entry sink i k : InstrId} {p : List InstrId} :
    (f.complete entry sink).Path i p k ↔ f.Path i p k := by
  constructor
  · intro h
    induction h with
    | stop i => exact .stop i
    | step h _ ih => exact .step (by simpa using h) ih
  · intro h
    induction h with
    | stop i => exact .stop i
    | step h _ ih => exact .step (by simpa using h) ih

/-- **Dead means out of reach.** In a completed graph an instruction is dead exactly when no
path leads to it from the entry. -/
theorem dead_complete_iff {f : Flow} (hf : f.Linked) {entry sink i : InstrId}
    (he : entry < f.size) (hi : i < f.size) :
    ((f.complete entry sink).instr i).dead = true ↔ ¬ f.Reaches entry i := by
  rw [instr_complete f entry sink hi, ← mem_reachable_iff hf he]
  simp

end ComponentAudit.Flow
