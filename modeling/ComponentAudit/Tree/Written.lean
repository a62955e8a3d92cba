import ComponentAudit.Json
import ComponentAudit.Tree.Basic

set_option autoImplicit false

/-! # The written form of a tree

Trees, kinds and types as JSON values, and back. A tree is a record of its nodes and its root,
a node a record of its kind, its parent and its children. A kind without data is its name; any
other kind is an object with its name as the only key and an object of its data as the value.

Reading is more liberal than writing: the records of trees, nodes and types may be arrays
(`Json.record?`), other keys are passed over, and a kind without data may also be written with
`null` as its data. The data of a kind is always an object (`Json.keyed?`).
-/

namespace ComponentAudit

/-- A text as a JSON value. -/
def Json.ofText (s : String) : Json := .text (some s)

/-- An optional value as a JSON value. -/
def Json.ofOption {α : Type} (write : α → Json) : Option α → Json
  | some a => write a
  | none => .null

/-- A record as a JSON value. -/
def Json.ofRecord (fields : List (String × Json)) : Json :=
  .object (fields.map fun (key, value) => (some key, value))

/-- The number of a node as a JSON value. -/
def Json.ofIndex (n : Nat) : Json := .int n

namespace TypeExpr

mutual

/-- A type as a JSON value. -/
def toJson : TypeExpr → Json
  | ⟨name, args, nullable⟩ =>
    Json.ofRecord
      [("name", Json.ofText name), ("args", .array (toJsonAll args)), ("nullable", .bool nullable)]

/-- A list of types as JSON values. -/
def toJsonAll : List TypeExpr → List Json
  | [] => []
  | t :: ts => toJson t :: toJsonAll ts

end

/-- The type that a JSON value denotes, nested to a bounded depth. -/
def ofJsonWithin : Nat → Json → Option TypeExpr
  | 0, _ => none
  | n + 1, j => do
    match ← j.record? [{ name := "name" }, { name := "args" }, { name := "nullable" }] with
    | [name, args, nullable] =>
      return {
        name := ← name.text?
        args := ← args.listOf? (ofJsonWithin n)
        nullable := ← nullable.bool? }
    | _ => none

end TypeExpr

mutual

/-- How deeply a JSON value is nested. -/
def Json.depth : Json → Nat
  | .array xs => Json.depthAll xs + 1
  | .object fs => Json.depthFields fs + 1
  | _ => 1

/-- The greatest depth among the items of an array. -/
def Json.depthAll : List Json → Nat
  | [] => 0
  | x :: xs => max (Json.depth x) (Json.depthAll xs)

/-- The greatest depth among the values of an object. -/
def Json.depthFields : List (Option String × Json) → Nat
  | [] => 0
  | (_, x) :: fs => max (Json.depth x) (Json.depthFields fs)

end

/-- The type that a JSON value denotes. -/
def TypeExpr.ofJson? (j : Json) : Option TypeExpr := TypeExpr.ofJsonWithin j.depth j

namespace Kind

/-- The name of a kind. -/
def tag : Kind → String
  | file _ => "File"
  | interface .. => "Interface"
  | property _ => "Property"
  | method _ => "MemberFunction"
  | classDecl _ => "Class"
  | supertype .. => "SuperTypeEntry"
  | function _ => "Function"
  | parameterList => "ParameterList"
  | parameter .. => "Parameter"
  | typeRef _ => "TypeRef"
  | block => "Block"
  | lambda => "Lambda"
  | call => "Call"
  | classRef _ => "ClassLiteral"
  | assign => "Assign"
  | select => "DotQualified"
  | reference _ => "NameRef"
  | literal _ => "Literal"
  | ifElse => "If"
  | whileLoop => "While"
  | returns => "Return"
  | throws => "Throw"
  | breaks => "Break"
  | continues => "Continue"
  | blank _ => "Whitespace"
  | comment _ => "Comment"

/-- The data of a kind, for the kinds that have some. -/
def data : Kind → List (String × Json)
  | file name | method name | classDecl name | classRef name | reference name =>
    [("name", Json.ofText name)]
  | interface name supertypes =>
    [("name", Json.ofText name), ("supertypes", .array (TypeExpr.toJsonAll supertypes))]
  | property decl =>
    [("name", Json.ofOption Json.ofText decl.name), ("mutable", .bool decl.mutable),
     ("receiver", Json.ofOption TypeExpr.toJson decl.receiver),
     ("synthesized", .bool decl.synthesized)]
  | supertype type called => [("ty", type.toJson), ("call", .bool called)]
  | function decl =>
    [("name", Json.ofOption Json.ofText decl.name),
     ("receiver", Json.ofOption TypeExpr.toJson decl.receiver),
     ("is_override", .bool decl.overrides)]
  | parameter name initial =>
    [("name", Json.ofText name), ("default", Json.ofOption Json.ofText initial)]
  | typeRef type => [("ty", type.toJson)]
  | literal text | blank text | comment text => [("text", Json.ofText text)]
  | parameterList | block | lambda | call | assign | select | ifElse | whileLoop | returns
  | throws | breaks | continues => []

/-- A kind as a JSON value. -/
def toJson (k : Kind) : Json :=
  if k.data.isEmpty then Json.ofText k.tag
  else Json.ofRecord [(k.tag, Json.ofRecord k.data)]

/-- The kinds without data. -/
def plain : List Kind :=
  [parameterList, block, lambda, call, assign, select, ifElse, whileLoop, returns, throws,
   breaks, continues]

/-- The kind without data of a given name. -/
def plain? (tag : String) : Option Kind := plain.find? (·.tag == tag)

/-- The value under one key of an object, read by the given reader. -/
def field? {α : Type} (key : String) (read : Json → Option α) (j : Json) : Option α := do
  match ← j.keyed? [{ name := key }] with
  | [value] => read value
  | _ => none

/-- The kind of a given name with the data that a JSON value denotes. -/
def ofData? (tag : String) (j : Json) : Option Kind :=
  match tag with
  | "File" => (field? "name" Json.text? j).map file
  | "Interface" => do
    match ← j.keyed? [{ name := "name" }, { name := "supertypes" }] with
    | [name, supertypes] =>
      return interface (← name.text?) (← supertypes.listOf? TypeExpr.ofJson?)
    | _ => none
  | "Property" => do
    match ← j.keyed? [{ name := "name", optional := true }, { name := "mutable" },
        { name := "receiver", optional := true }, { name := "synthesized" }] with
    | [name, mutable, receiver, synthesized] =>
      return property {
        name := ← name.orNull? Json.text?
        mutable := ← mutable.bool?
        receiver := ← receiver.orNull? TypeExpr.ofJson?
        synthesized := ← synthesized.bool? }
    | _ => none
  | "MemberFunction" => (field? "name" Json.text? j).map method
  | "Class" => (field? "name" Json.text? j).map classDecl
  | "SuperTypeEntry" => do
    match ← j.keyed? [{ name := "ty" }, { name := "call" }] with
    | [type, called] => return supertype (← TypeExpr.ofJson? type) (← called.bool?)
    | _ => none
  | "Function" => do
    match ← j.keyed? [{ name := "name", optional := true },
        { name := "receiver", optional := true }, { name := "is_override" }] with
    | [name, receiver, overrides] =>
      return function {
        name := ← name.orNull? Json.text?
        receiver := ← receiver.orNull? TypeExpr.ofJson?
        overrides := ← overrides.bool? }
    | _ => none
  | "Parameter" => do
    match ← j.keyed? [{ name := "name" }, { name := "default", optional := true }] with
    | [name, initial] => return parameter (← name.text?) (← initial.orNull? Json.text?)
    | _ => none
  | "TypeRef" => (field? "ty" TypeExpr.ofJson? j).map typeRef
  | "ClassLiteral" => (field? "name" Json.text? j).map classRef
  | "NameRef" => (field? "name" Json.text? j).map reference
  | "Literal" => (field? "text" Json.text? j).map literal
  | "Whitespace" => (field? "text" Json.text? j).map blank
  | "Comment" => (field? "text" Json.text? j).map comment
  | _ =>
    match j with
    | .null => plain? tag
    | _ => none

/-- The kind that a JSON value denotes. -/
def ofJson? : Json → Option Kind
  | .text (some tag) => plain? tag
  | .object [(some tag, data)] => ofData? tag data
  | _ => none

end Kind

/-- A node as a JSON value. -/
def Node.toJson (n : Node) : Json :=
  Json.ofRecord [("kind", n.kind.toJson), ("parent", Json.ofOption Json.ofIndex n.parent),
    ("children", .array (n.children.map Json.ofIndex))]

/-- The node that a JSON value denotes. -/
def Node.ofJson? (j : Json) : Option Node := do
  match ← j.record? [{ name := "kind" }, { name := "parent", optional := true },
      { name := "children" }] with
  | [kind, parent, children] =>
    return {
      kind := ← Kind.ofJson? kind
      parent := ← parent.orNull? Json.index?
      children := ← children.listOf? Json.index? }
  | _ => none

/-- A tree as a JSON value. -/
def Tree.toJson (t : Tree) : Json :=
  Json.ofRecord [("nodes", .array (t.nodes.toList.map Node.toJson)), ("root", Json.ofIndex t.root)]

/-- The tree that a JSON value denotes. -/
def Tree.ofJson? (j : Json) : Option Tree := do
  match ← j.record? [{ name := "nodes" }, { name := "root" }] with
  | [nodes, root] =>
    return { nodes := (← nodes.listOf? Node.ofJson?).toArray, root := ← root.index? }
  | _ => none

end ComponentAudit
