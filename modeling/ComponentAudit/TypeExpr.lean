set_option autoImplicit false

/-! # Type expressions

A type as it is written in a source file: the name of a constructor, its arguments, and
whether null belongs to the type. Two type expressions are the same type when all three agree.

Constructor names may be qualified. A test against a name of the framework looks at the last
segment of both names only (`TypeExpr.isClass`).
-/

namespace ComponentAudit

/-- The last segment of a dotted name. -/
def lastSegment (name : String) : String :=
  String.ofList (name.toList.reverse.takeWhile (· != '.')).reverse

/-- A type expression. -/
structure TypeExpr where
  name : String
  args : List TypeExpr := []
  nullable : Bool := false
deriving Inhabited

namespace TypeExpr

mutual

/-- Equality of type expressions is decided part by part. -/
def decEq : (a b : TypeExpr) → Decidable (a = b)
  | ⟨n, as, q⟩, ⟨m, bs, r⟩ =>
    match decEqAll as bs with
    | isFalse h => isFalse fun e => h (congrArg args e)
    | isTrue h =>
      if hn : n = m then
        if hq : q = r then isTrue (by rw [h, hn, hq])
        else isFalse fun e => hq (congrArg nullable e)
      else isFalse fun e => hn (congrArg name e)

/-- Equality of lists of type expressions is decided item by item. -/
def decEqAll : (as bs : List TypeExpr) → Decidable (as = bs)
  | [], [] => isTrue rfl
  | [], _ :: _ => isFalse nofun
  | _ :: _, [] => isFalse nofun
  | a :: as, b :: bs =>
    match decEq a b, decEqAll as bs with
    | isTrue h, isTrue hs => isTrue (by rw [h, hs])
    | isFalse h, _ => isFalse fun e => h (List.cons.inj e).1
    | _, isFalse hs => isFalse fun e => hs (List.cons.inj e).2

end

instance : DecidableEq TypeExpr := decEq

/-- A type without arguments. -/
def simple (name : String) : TypeExpr := { name }

/-- A constructor applied to arguments. -/
def generic (name : String) (args : List TypeExpr) : TypeExpr := { name, args }

/-- The same type with null added to it. -/
def orNull (t : TypeExpr) : TypeExpr := { t with nullable := true }

/-- The last segment of the constructor's name. -/
def simpleName (t : TypeExpr) : String := lastSegment t.name

/-- Whether the constructor is the class of the given name, qualified or not. -/
def isClass (t : TypeExpr) (name : String) : Bool := t.simpleName == lastSegment name

mutual

/-- The type as source text: `Name<A, B>?`. -/
def source : TypeExpr → String
  | ⟨name, args, nullable⟩ =>
    name ++ (if args.isEmpty then "" else "<" ++ ", ".intercalate (sourceAll args) ++ ">") ++
      (if nullable then "?" else "")

/-- The source texts of a list of types. -/
def sourceAll : List TypeExpr → List String
  | [] => []
  | t :: ts => source t :: sourceAll ts

end

end TypeExpr

end ComponentAudit
