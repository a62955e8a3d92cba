set_option autoImplicit false

/-! # JSON values

The values that JSON text denotes. Objects keep every field in the order written, repeated
keys included, because a reader of records has to notice repetitions. Two of the leaves carry
less than the text did:

* a number with a fraction or an exponent, and minus zero, is only known to be a number,
  since nothing here reads one;
* a text whose escapes name half of a surrogate pair without the other denotes no text at
  all. It is still a JSON string, and stands for `none`.
-/

namespace ComponentAudit

/-- A JSON value. -/
inductive Json where
  | null
  | bool (value : Bool)
  | int (value : Int)
  | decimal
  | text (value : Option String)
  | array (items : List Json)
  | object (fields : List (Option String × Json))
deriving Inhabited

namespace Json

/-- The value of a string. -/
def text? : Json → Option String
  | text s => s
  | _ => none

/-- The value of a truth value. -/
def bool? : Json → Option Bool
  | bool b => some b
  | _ => none

/-- The value of a whole number that fits in 32 bits without a sign. -/
def index? : Json → Option Nat
  | int n => if 0 ≤ n ∧ n < Int.pow 2 32 then some n.toNat else none
  | _ => none

/-- The items of an array. -/
def items? : Json → Option (List Json)
  | array xs => some xs
  | _ => none

/-- The items of an array, each read by the same reader. -/
def listOf? {α : Type} (read : Json → Option α) (j : Json) : Option (List α) :=
  j.items?.bind (·.mapM read)

/-- `null` for no value, otherwise a value read by the given reader. -/
def orNull? {α : Type} (read : Json → Option α) : Json → Option (Option α)
  | null => some none
  | j => (read j).map some

/-- The values written under a key, in order. -/
def valuesAt (fields : List (Option String × Json)) (key : String) : List Json :=
  (fields.filter (·.1 == some key)).map (·.2)

/-- The value under each of the given keys of an object, where a key may be absent but not
repeated. Other keys are passed over, as long as they are texts. -/
def lookup? (keys : List String) (fields : List (Option String × Json)) :
    Option (List (Option Json)) :=
  if fields.all (·.1.isSome) then
    keys.mapM fun key =>
      match valuesAt fields key with
      | [] => some none
      | [j] => some (some j)
      | _ => none
  else none

/-- A record whose keys may all be left out: an object, or an array that gives the values in
the order of the keys and stops early if it likes. -/
def partialRecord? (keys : List String) : Json → Option (List (Option Json))
  | object fields => lookup? keys fields
  | array xs =>
    if xs.length ≤ keys.length then
      some (xs.map some ++ List.replicate (keys.length - xs.length) none)
    else none
  | _ => none

/-- A key of a record, and whether an object may leave it out. -/
structure Key where
  name : String
  optional : Bool := false

/-- The values of an object in the order of the keys. An optional key may be absent, which is
the same as `null`. -/
def keyed? (keys : List Key) : Json → Option (List Json)
  | object fields => do
    let values ← lookup? (keys.map (·.name)) fields
    (keys.zip values).mapM fun (key, value) =>
      match value with
      | some j => some j
      | none => if key.optional then some null else none
  | _ => none

/-- A record: an object, or an array of all the values in the order of the keys. -/
def record? (keys : List Key) : Json → Option (List Json)
  | array xs => if xs.length = keys.length then some xs else none
  | j => j.keyed? keys

end Json

end ComponentAudit
