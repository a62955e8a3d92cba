import ComponentAudit.Component

set_option autoImplicit false

/-! # Diagnostics

What an audit reports: a message at a node, how grave it is, and the fixes that a host can
offer for it. The wording of every message of this library stands in `Finding.message`, and
the titles of the fixes in `Fix.title`.

Diagnostics are kept in the order reported. One that is reported only once is left out when
its message has been reported at the same node before.
-/

namespace ComponentAudit

/-- How grave a diagnostic is. -/
inductive Severity where
  | error
  | warning
  | weakWarning
  /-- Shown as code that is not used. -/
  | unused
deriving DecidableEq

/-- A change of the file that a host may offer. -/
inductive Fix where
  | makeMutable (property : NodeId)
  /-- Renames a declaration. Without a name the host has to ask for one. -/
  | rename (target : NodeId) (name : Option String)
  | removeDeclaration (target : NodeId)
  | removeSchema (decl : NodeId) (role : Role)
  | regenerate (component : NodeId)
  | synchronize (function : NodeId)
  | takeProps (component : NodeId)
deriving DecidableEq

/-- What a host shows for a fix. -/
def Fix.title : Fix → String
  | makeMutable _ => "Make var"
  | rename _ (some name) => "Rename to \"" ++ name ++ "\""
  | rename _ none => "Rename"
  | removeDeclaration _ => "Delete"
  | removeSchema _ role => "Delete " ++ role.title
  | regenerate _ => "Regenerate builder function"
  | synchronize _ => "Update builder function"
  | takeProps _ => "Add props constructor parameter"

/-- What an audit can find. -/
inductive Finding where
  /-- A member of a schema that is no mutable property. -/
  | notMutableProperty (role : Role)
  | reservedName (name : String)
  /-- A schema without fields. -/
  | noFields (role : Role)
  | propsNotPassed
  /-- A state initialiser takes props that the constructor does not pass on. -/
  | parameterNotPassed (propsName : String)
  | missingBuilder
  | bothInitializers
  | stateNotInitialized
  | stateFieldNotInitialized
  | fieldNotInitialized
  /-- Some fields of a type are left out. -/
  | incomplete (typeName : String)
  | misnamedBuilder (expected : String)
  /-- A field whose builder parameter has another type. -/
  | outdatedParameterType
  /-- A builder function with such parameters. -/
  | outdatedParameterTypes
  | outdatedAssignments
  | outdatedBuilder
  | childrenNotInitialized
deriving DecidableEq

/-- The wording of a finding. -/
def Finding.message : Finding → String
  | notMutableProperty role =>
    "Only var properties are allowed in " ++ role.title ++ " interfaces"
  | reservedName name =>
    "\"" ++ name ++ "\" is reserved for React Special Property and cannot be used"
  | noFields role => "There are no props in " ++ role.title
  | propsNotPassed => "Props not passed to constructor"
  | parameterNotPassed propsName => propsName ++ " is not passed to component constructor"
  | missingBuilder => "Missed builder function"
  | bothInitializers => "Both \"State.init\" and \"State.init(props)\" is overridden"
  | stateNotInitialized => "Component has state that should be initialized"
  | stateFieldNotInitialized => "Value is not initialized in component state init function"
  | fieldNotInitialized => "Value is not initialized in component builder function"
  | incomplete typeName => "All " ++ typeName ++ " vars should be initialized"
  | misnamedBuilder expected =>
    "Component builder function should be named as \"" ++ expected ++ "\""
  | outdatedParameterType => "Builder function has outdated parameter type"
  | outdatedParameterTypes => "Builder function contains outdated parameter types"
  | outdatedAssignments => "Builder function contains outdated assignments"
  | outdatedBuilder => "Outdated builder function"
  | childrenNotInitialized => "Children is used in component, but not initialized"

/-- A message at a node, with the fixes on offer. -/
structure Diagnostic where
  location : NodeId
  message : String
  severity : Severity
  fixes : List Fix := []
deriving DecidableEq

/-- The diagnostic of a finding at a node. -/
def Finding.at (f : Finding) (location : NodeId) (severity : Severity) (fixes : List Fix) :
    Diagnostic :=
  { location, message := f.message, severity, fixes }

/-- Whether two diagnostics say the same at the same node. -/
def Diagnostic.repeats (a b : Diagnostic) : Bool :=
  a.location == b.location && a.message == b.message

/-- Diagnostics in the order reported. -/
abbrev Log := List Diagnostic

namespace Log

/-- The log with one more diagnostic. -/
def add (log : Log) (d : Diagnostic) : Log := log ++ [d]

/-- The log with one more diagnostic, unless it repeats one. -/
def addNew (log : Log) (d : Diagnostic) : Log :=
  if log.any d.repeats then log else log.add d

/-- Reports each of some diagnostics once. -/
def addEachNew (log : Log) (ds : List Diagnostic) : Log := ds.foldl addNew log

end Log

end ComponentAudit
