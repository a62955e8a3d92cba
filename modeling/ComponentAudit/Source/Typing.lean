import ComponentAudit.Source.Basic
import ComponentAudit.Text.Numeral

set_option autoImplicit false

/-! # Types of expressions

The type of an expression and the declaration that a reference means. The two depend on each
other: in `a.b` the name `b` is looked up in the type of `a`, and the type of `a.b` is that of
the declaration found. Each step moves on to a node not visited before, so their number is
bounded by the size of the tree.

Main definitions: `Source.typeOf?` and `Source.resolve?`.
-/

namespace ComponentAudit

/-- The type of a literal, which its text shows. -/
def literalType? (text : String) : Option TypeExpr :=
  if text.toList.head? = some '"' then some (.simple "String")
  else if text = "true" ∨ text = "false" then some (.simple "Boolean")
  else if Text.isInteger text then some (.simple "Int")
  else if Text.isDecimal text then some (.simple "Double")
  else none

namespace Source

/-- The receiver `r` when a node is the selector of `r.name`. -/
def qualifier? (s : Source) (id : NodeId) : Option NodeId := do
  let parent ← s.tree.parent id
  if s.tree.kind parent = .select then
    let (receiver, selector) ← s.tree.operands? parent
    if selector = id then some receiver else none
  else none

/-- The type of a bound name: the props for the member that holds them, otherwise the type of
its declaration. -/
def bindingType? (s : Source) : Binding → Option TypeExpr
  | .implicit receiver (.member ..) => receiver.type.args[0]?
  | b => b.declaration?.bind s.tree.declaredType?

/-- The type of an expression, found in a bounded number of steps. -/
def typeWithin? (s : Source) : Nat → NodeId → Option TypeExpr
  | 0, _ => none
  | n + 1, id =>
    match s.tree.kind id with
    | .reference name =>
      match s.qualifier? id with
      | some receiver => do
        let owner ← s.typeWithin? n receiver
        let decl ← s.member? owner name
        s.tree.declaredType? decl
      | none => s.bindingType? (s.binding id name)
    | .select => do
      let (_, selector) ← s.tree.operands? id
      s.typeWithin? n selector
    | .literal text => literalType? text
    | .classRef name => some (.generic "KClass" [.simple name])
    | _ => none

/-- The type of an expression. -/
def typeOf? (s : Source) (id : NodeId) : Option TypeExpr := s.typeWithin? s.tree.size id

/-- The declaration that a name means, qualified or bare. -/
def referent? (s : Source) (id : NodeId) : Option NodeId := do
  let name ← s.tree.referenceName? id
  match s.qualifier? id with
  | some receiver =>
    let owner ← s.typeOf? receiver
    s.member? owner name
  | none => (s.binding id name).declaration?

/-- What a name behind a point accesses. -/
def selected (s : Source) (id : NodeId) : Target :=
  match s.referent? id with
  | some decl => .declared decl
  | none => .unresolved

/-- What a bare name accesses, and through which implicit receiver. -/
def access (s : Source) (id : NodeId) : Target × Option Receiver :=
  match s.tree.referenceName? id with
  | some name => (s.binding id name).access
  | none => (.unresolved, none)

/-- The declaration that a name or a class used as a value means. -/
def resolve? (s : Source) (id : NodeId) : Option NodeId :=
  match s.tree.kind id with
  | .reference _ => s.referent? id
  | .classRef _ => s.classOf? id
  | _ => none

/-- The names below a node, the node included. -/
def namesBelow (s : Source) (id : NodeId) : List NodeId :=
  (s.tree.descendants id).filter fun n => (s.tree.kind n).isReference

/-- The names and class references in the file that mean a declaration. -/
def uses (s : Source) (decl : NodeId) : List NodeId :=
  (s.tree.descendants s.tree.root).filter fun n => s.resolve? n == some decl

end Source

end ComponentAudit
