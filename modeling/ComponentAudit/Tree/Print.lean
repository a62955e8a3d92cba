import ComponentAudit.Tree.Layout

set_option autoImplicit false

/-! # Source text

A tree as source text. Each declaration of a file and each statement of a block starts a line
of its own, indented by four spaces a level. A blank between statements that holds two or more
line ends becomes an empty line; all other blanks are dropped. Comments are printed among the
statements of a block only.
-/

namespace ComponentAudit.Tree

/-- The start of a line at some depth. -/
def lineStart (depth : Nat) : String :=
  "\n" ++ String.ofList (List.replicate (4 * depth) ' ')

/-- Whether a blank separates statements by an empty line. -/
def hasEmptyLine (text : String) : Bool := 2 ≤ text.toList.count '\n'

/-- Texts between parentheses. -/
def parenthesized (items : List String) : String := "(" ++ ", ".intercalate items ++ ")"

/-- Lines between braces, each with the break before it. -/
def braced (depth : Nat) (lines : List String) : String :=
  "\x7b" ++ String.join lines ++ lineStart depth ++ "\x7d"

/-- What stands between the braces of a block, given a printer for statements. -/
def printBlock (t : Tree) (print : Nat → NodeId → String) (depth : Nat) (id : NodeId) : String :=
  if (t.significant id).isEmpty then "\x7b\x7d"
  else braced depth <| (t.children id).map fun c =>
    match t.kind c with
    | .blank text => if hasEmptyLine text then "\n" else ""
    | _ => lineStart (depth + 1) ++ print (depth + 1) c

/-- The members of an interface or a class behind its head, given a printer for them. -/
def printMembers (print : Nat → NodeId → String) (depth : Nat) (members : List NodeId) : String :=
  if members.isEmpty then ""
  else " " ++ braced depth (members.map fun m => lineStart (depth + 1) ++ print (depth + 1) m)

/-- The type on a declaration, behind a colon. -/
def printType (t : Tree) (id : NodeId) : String :=
  match t.writtenType? id with
  | some type => ": " ++ type.source
  | none => ""

/-- The receiver of an extension, before the point. -/
def printReceiver : Option TypeExpr → String
  | some type => type.source ++ "."
  | none => ""

/-- A node as source text, down to a bounded number of levels below it. -/
def printNode (t : Tree) : Nat → Nat → NodeId → String
  | 0, _, _ => ""
  | n + 1, depth, id =>
    let print := t.printNode n
    let children := t.children id
    let part (c : Option NodeId) : String := match c with
      | some c => print depth c
      | none => ""
    match t.kind id with
    | .file _ =>
      let decls := t.significant id
      "\n\n".intercalate (decls.map (print depth)) ++ (if decls.isEmpty then "" else "\n")
    | .interface name supertypes =>
      "interface " ++ name ++
        (if supertypes.isEmpty then ""
          else " : " ++ ", ".intercalate (TypeExpr.sourceAll supertypes)) ++
        printMembers print depth (t.significant id)
    | .property decl =>
      (if decl.mutable then "var " else "val ") ++ printReceiver decl.receiver ++
        decl.name.getD "<anonymous>" ++ t.printType id
    | .method name => "fun " ++ name ++ "()"
    | .classDecl name =>
      "class " ++ name ++
        part (t.parameterList? id) ++
        (if (t.supertypes id).isEmpty then ""
          else " : " ++ ", ".intercalate ((t.supertypes id).map (print depth))) ++
        printMembers print depth (t.members id)
    | .supertype type call =>
      type.source ++ (if call then parenthesized (children.map (print depth)) else "")
    | .function decl =>
      (if decl.overrides then "override " else "") ++ "fun " ++ printReceiver decl.receiver ++
        decl.name.getD "" ++
        (match t.parameterList? id with
          | some list => print depth list
          | none => "()") ++
        (match t.functionBody? id with
          | some body =>
            if t.kind body = .block then " " ++ t.printBlock print depth body
            else " = " ++ print depth body
          | none => "")
    | .parameterList => parenthesized ((t.significant id).map (print depth))
    | .parameter name initial =>
      name ++ t.printType id ++
        (match initial with
          | some text => " = " ++ text
          | none => "")
    | .typeRef type => type.source
    | .block => t.printBlock print depth id
    | .lambda =>
      match t.lambdaBody? id with
      | some block => t.printBlock print depth block
      | none => "\x7b\x7d"
    | .call =>
      let args := t.arguments id
      let lambda := t.trailingLambda? id
      part children.head? ++
        (if !args.isEmpty || lambda.isNone then parenthesized (args.map (print depth)) else "") ++
        (match lambda with
          | some body => " " ++ print depth body
          | none => "")
    | .classRef name => name ++ "::class"
    | .assign =>
      match t.operands? id with
      | some (place, value) => print depth place ++ " = " ++ print depth value
      | none => ""
    | .select =>
      match t.operands? id with
      | some (receiver, selector) => print depth receiver ++ "." ++ print depth selector
      | none => ""
    | .reference name => name
    | .literal text => text
    | .ifElse =>
      "if (" ++ part children.head? ++ ") " ++
        (match children[1]? with
          | some yes => t.printBlock print depth yes
          | none => "") ++
        (match children[2]? with
          | some no => " else " ++ t.printBlock print depth no
          | none => "")
    | .whileLoop =>
      "while (" ++ part children.head? ++ ") " ++
        (match children[1]? with
          | some body => t.printBlock print depth body
          | none => "")
    | .returns => "return" ++ (if children.isEmpty then "" else " " ++ part children.head?)
    | .throws => "throw" ++ (if children.isEmpty then "" else " " ++ part children.head?)
    | .breaks => "break"
    | .continues => "continue"
    | .blank _ => ""
    | .comment text => "// " ++ text

/-- A node and everything below it as source text. -/
def printFrom (t : Tree) (id : NodeId) : String := t.printNode t.size 0 id

/-- The whole file as source text. -/
def print (t : Tree) : String := t.printFrom t.root

end ComponentAudit.Tree
