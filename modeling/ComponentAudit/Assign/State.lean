import ComponentAudit.Field

set_option autoImplicit false

/-! # Assignment states

What is known about the fields at an instruction: which of them every path assigns, with what
value and where. When paths come together only the fields that all of them assign are kept.
Their values are kept where they agree and become mixed where they do not, and the place of
the write becomes the nearest node around both.

Writes that fit the pattern of a field write but name no field are collected as well; they are
never forgotten, and those of all paths are put together.
-/

namespace ComponentAudit

/-- Where the value of a field comes from. -/
inductive Origin where
  /-- Exactly the value of this parameter. -/
  | parameter (decl : NodeId)
  /-- Anything else. -/
  | mixed
deriving DecidableEq, Inhabited

/-- What is known of the origin of a value that is one of two. -/
def Origin.meet (a b : Origin) : Origin := if a = b then a else .mixed

/-- A write. -/
structure Assignment where
  origin : Origin
  /-- The node that the write lies in, if it is known. -/
  anchor : Option NodeId := none
deriving DecidableEq, Inhabited

/-- What is known of a write that is one of two. -/
def Assignment.meet (t : Tree) (a b : Assignment) : Assignment where
  origin := a.origin.meet b.origin
  anchor := match a.anchor, b.anchor with
    | some x, some y => t.commonAncestor? x y
    | _, _ => none

/-- The fields that are assigned, in the order in which they were first assigned. No field
occurs twice. -/
abbrev Assigned := List (Field × Assignment)

namespace Assigned

/-- What a field was assigned. -/
def get? (m : Assigned) (f : Field) : Option Assignment :=
  (m.find? fun e => e.1.decl == f.decl).map (·.2)

/-- Records a write, which replaces an earlier one to the same field and keeps its place. -/
def set : Assigned → Field → Assignment → Assigned
  | [], f, a => [(f, a)]
  | (g, b) :: rest, f, a => if g.decl = f.decl then (g, a) :: rest else (g, b) :: set rest f a

/-- Keeps the fields that are assigned on a second path too. -/
def meet (t : Tree) (m other : Assigned) : Assigned :=
  m.filterMap fun (f, a) => (other.get? f).map fun b => (f, a.meet t b)

@[simp] theorem get?_nil (f : Field) : get? [] f = none := rfl

theorem get?_cons (e : Field × Assignment) (m : Assigned) (f : Field) :
    get? (e :: m) f = if e.1.decl = f.decl then some e.2 else get? m f := by
  by_cases h : e.1.decl = f.decl <;> simp [get?, h]

/-- After a write the field has the value written, and the others have theirs. -/
theorem get?_set (m : Assigned) (f g : Field) (a : Assignment) :
    (m.set f a).get? g = if f.decl = g.decl then some a else m.get? g := by
  induction m with
  | nil => simp [set, get?_cons]
  | cons e m ih =>
    by_cases h : e.1.decl = f.decl
    · by_cases hg : f.decl = g.decl <;> simp [set, get?_cons, h, hg]
    · by_cases hg : f.decl = g.decl
      · simp [set, get?_cons, ih, hg, hg ▸ h]
      · simp [set, get?_cons, h, ih, hg]

/-- A write adds the field at the end unless it is there already. -/
theorem map_decl_set (m : Assigned) (f : Field) (a : Assignment) :
    (m.set f a).map (·.1.decl) =
      if f.decl ∈ m.map (·.1.decl) then m.map (·.1.decl) else m.map (·.1.decl) ++ [f.decl] := by
  induction m with
  | nil => simp [set]
  | cons e m ih =>
    by_cases h : e.1.decl = f.decl
    · simp [set, h]
    · by_cases hm : f.decl ∈ m.map (·.1.decl)
      · simp only [hm, if_true] at ih
        simp [set, h, ih, hm]
      · simp only [hm, if_false] at ih
        simp [set, h, ih, hm, Ne.symm h]

end Assigned

/-- What is known at an instruction. -/
structure Knowledge where
  assigned : Assigned := []
  /-- The writes that fit the pattern but name no field. -/
  unknown : List Assignment := []
deriving DecidableEq, Inhabited

/-- The result at an instruction. -/
inductive State where
  /-- There is no instruction. -/
  | empty
  /-- The result is being computed. -/
  | pending
  | known (knowledge : Knowledge)
deriving DecidableEq, Inhabited

namespace State

/-- The fields that are assigned, none where nothing is known. -/
def assigned : State → Assigned
  | known k => k.assigned
  | _ => []

/-- The writes that name no field. -/
def unknown : State → List Assignment
  | known k => k.unknown
  | _ => []

/-- What a field was assigned. -/
def get? (s : State) (f : Field) : Option Assignment := s.assigned.get? f

/-- Whether a field is assigned. -/
def assigns (s : State) (f : Field) : Bool := (s.get? f).isSome

end State

/-- A state put together from the paths that lead to an instruction. -/
structure Merge where
  /-- The fields assigned on all paths so far, if there was one. -/
  assigned : Option Assigned := none
  unknown : List Assignment := []
deriving DecidableEq, Inhabited

namespace Merge

/-- Adds the state at the end of a path. A state that is not known adds nothing. -/
def join (t : Tree) (m : Merge) : State → Merge
  | .known k => {
      assigned := some <| match m.assigned with
        | none => k.assigned
        | some current => current.meet t k.assigned
      unknown := m.unknown ++ k.unknown }
  | _ => m

/-- Adds a write to a field after the paths have come together. -/
def write (m : Merge) (f : Field) (a : Assignment) : Merge :=
  { m with assigned := some ((m.assigned.getD []).set f a) }

/-- Adds a write that names no field. -/
def writeUnknown (m : Merge) (a : Assignment) : Merge := { m with unknown := m.unknown ++ [a] }

/-- The state that results. -/
def state (m : Merge) : State := .known { assigned := m.assigned.getD [], unknown := m.unknown }

end Merge

end ComponentAudit
