import ComponentAudit.Json.Reader
import ComponentAudit.Text.Blank

set_option autoImplicit false

/-! # The names of a framework

The analysis knows a component framework by a handful of names: its base types, the function
that constructs a component, the member that holds the props. The defaults describe one
common framework; a host that uses another one supplies a table as JSON text.

Main definitions: `Framework.read` reads such a text, and `Framework.readBytes` a file's
contents. A table may leave out any key, and no name in it may be blank.
-/

namespace ComponentAudit

/-- The names that a framework uses. -/
structure Framework where
  /-- Base class of components, which takes the props and the state type. -/
  componentBase : String := "RComponent"
  propsBase : String := "RProps"
  stateBase : String := "RState"
  /-- Receiver type of builder functions. -/
  builderReceiver : String := "RBuilder"
  /-- Receiver type inside a construction lambda. -/
  elementBuilder : String := "RElementBuilder"
  /-- Type of the parameter that takes the children. -/
  handlerType : String := "RHandler"
  /-- Function that constructs a component. -/
  constructionFunction : String := "child"
  /-- Member of the element builder that holds the props. -/
  attrsMember : String := "attrs"
  /-- Name of the state initialiser. -/
  stateInitFunction : String := "init"
  /-- Names of props that the framework keeps for itself. -/
  reservedProps : List String := ["key", "ref", "children"]
  /-- Name of the children parameter in a generated builder function. -/
  bodyParameter : String := "body"
  renderFunction : String := "render"
deriving DecidableEq, Inhabited

/-- Why a table of names is refused. -/
inductive FrameworkError where
  /-- The text is not JSON, or not a table of names. -/
  | malformed
  /-- The name under this key is blank. -/
  | emptyName (key : String)
deriving DecidableEq

/-- Why a file that should hold a table gives none. -/
inductive FrameworkFileError where
  /-- There is no such file, or its bytes are no text. -/
  | unreadable
  | invalid (cause : FrameworkError)
deriving DecidableEq

/-- The wording of a refusal whose text is fixed. -/
def FrameworkError.message : FrameworkError → String
  | malformed => "invalid config json"
  | emptyName key => "config key `" ++ key ++ "` must not be empty"

/-- The wording of a failure to load the file of the given path. -/
def FrameworkFileError.message (path : String) : FrameworkFileError → String
  | unreadable => "failed to read config " ++ path
  | invalid _ => "invalid config " ++ path

namespace Framework

/-- The keys of a table, in the order in which the array form gives the values. -/
def keys : List String :=
  ["component_base", "props_base", "state_base", "builder_receiver", "element_builder",
   "handler_type", "construction_function", "attrs_member", "state_init_function",
   "reserved_props", "body_parameter", "render_function"]

/-- The keys whose value is a single name, with the names, in the order of the table. -/
def names (fw : Framework) : List (String × String) :=
  [("component_base", fw.componentBase), ("props_base", fw.propsBase),
   ("state_base", fw.stateBase), ("builder_receiver", fw.builderReceiver),
   ("element_builder", fw.elementBuilder), ("handler_type", fw.handlerType),
   ("construction_function", fw.constructionFunction), ("attrs_member", fw.attrsMember),
   ("state_init_function", fw.stateInitFunction), ("body_parameter", fw.bodyParameter),
   ("render_function", fw.renderFunction)]

/-- Whether the framework keeps a props name for itself. -/
def isReserved (fw : Framework) (name : String) : Bool := fw.reservedProps.contains name

/-- The first key, in the order of the table, whose name is blank. -/
def blankKey? (fw : Framework) : Option String :=
  (fw.names.find? fun (_, name) => Text.isBlank name).map (·.1)

/-- A value read by the given reader where there is one, and the default where there is none. -/
def readOr {α : Type} (read : Json → Option α) (default : α) : Option Json → Option α
  | none => some default
  | some j => read j

/-- The table that a JSON value denotes, its names unchecked. -/
def decode? (j : Json) : Option Framework := do
  let name := readOr Json.text?
  match ← j.partialRecord? keys with
  | [base, props, state, receiver, element, handler, construct, attrs, init, reserved, body,
      render] =>
    let std : Framework := {}
    return {
      componentBase := ← name std.componentBase base
      propsBase := ← name std.propsBase props
      stateBase := ← name std.stateBase state
      builderReceiver := ← name std.builderReceiver receiver
      elementBuilder := ← name std.elementBuilder element
      handlerType := ← name std.handlerType handler
      constructionFunction := ← name std.constructionFunction construct
      attrsMember := ← name std.attrsMember attrs
      stateInitFunction := ← name std.stateInitFunction init
      reservedProps := ← readOr (Json.listOf? Json.text?) std.reservedProps reserved
      bodyParameter := ← name std.bodyParameter body
      renderFunction := ← name std.renderFunction render }
  | _ => none

/-- The table that a JSON value denotes. -/
def ofJson (j : Json) : Except FrameworkError Framework :=
  match decode? j with
  | none => .error .malformed
  | some fw =>
    match fw.blankKey? with
    | some key => .error (.emptyName key)
    | none => .ok fw

/-- The table that a JSON text denotes. -/
def read (text : String) : Except FrameworkError Framework :=
  match Json.read? text with
  | none => .error .malformed
  | some j => ofJson j

/-- The table in a file, given its bytes if there is such a file. -/
def readBytes : Option ByteArray → Except FrameworkFileError Framework
  | none => .error .unreadable
  | some bytes =>
    match String.fromUTF8? bytes with
    | none => .error .unreadable
    | some text => (read text).mapError .invalid

/-- The table as a JSON value, with every key. -/
def toJson (fw : Framework) : Json :=
  .object (fw.names.map (fun (key, name) => (some key, .text (some name))) ++
    [(some "reserved_props", .array (fw.reservedProps.map fun name => .text (some name)))])

end Framework

end ComponentAudit
