import ComponentAudit.Construction

set_option autoImplicit false

/-! # Auditing a file

Three audits look for mistakes, each in its own kind of place: schemas, component classes and
constructions. They write to one log in this order.

Main definitions: `Source.auditAll` runs all three, and `Audit.run` a single one.
-/

namespace ComponentAudit

/-! ## Schemas -/

/-- Reports the members of a schema that are no fields, and a schema without fields. -/
def Schema.audit (i : Schema) (s : Source) (log : Log) : Log :=
  let log := (i.refusals s).foldl Log.add log
  if (i.fields s).isEmpty then
    log.addNew ((Finding.noFields i.role).at i.decl .unused [.removeSchema i.decl i.role])
  else log

/-- Reports on every schema. -/
def Source.auditSchemas (s : Source) (log : Log) : Log :=
  (s.tree.declarations.filterMap (Schema.of? s.tree s.framework)).foldl
    (fun log i => i.audit s log) log

/-! ## Components -/

/-- What is wrong when a component initialises its state with and without the props. -/
def bothKinds (initializers : List Initializer) : List Diagnostic :=
  if initializers.any (·.propsParameter.isSome) && initializers.any (·.propsParameter.isNone) then
    initializers.map fun i =>
      Finding.bothInitializers.at i.function .warning [.removeDeclaration i.function]
  else []

namespace Component

/-- What is wrong when the state has fields and there is no initialiser. -/
def uninitialized (c : Component) (s : Source) (initializers : List Initializer) :
    List Diagnostic :=
  if initializers.isEmpty && (c.schema? s .state).any fun i => !(i.fields s).isEmpty then
    [Finding.stateNotInitialized.at c.decl .warning []]
  else []

/-- What is wrong when initialisers take props that the constructor does not hand on. -/
def withheldProps (c : Component) (s : Source) (initializers : List Initializer) :
    List Diagnostic :=
  if c.passesProps s.tree then []
  else (initializers.filterMap (·.propsParameter)).map fun p =>
    (Finding.parameterNotPassed (c.argumentName s.tree s.framework .props)).at p .warning
      [.takeProps c.decl]

/-- What is wrong with an initialiser that leaves fields of the state out. -/
def leftOut (c : Component) (s : Source) (i : Initializer) : List Diagnostic :=
  let missing := i.missing s
  if missing.isEmpty then []
  else missing.map (fun f => Finding.stateFieldNotInitialized.at f.decl .warning []) ++
    [(Finding.incomplete (c.argumentName s.tree s.framework .state)).at i.function .warning []]

/-- What is wrong with the initialisation of the state. -/
def stateDiagnostics (c : Component) (s : Source) : List Diagnostic :=
  let initializers := c.initializers s
  bothKinds initializers ++ c.uninitialized s initializers ++ c.withheldProps s initializers ++
    initializers.flatMap (c.leftOut s)

/-- What is wrong when the props are not handed to the base class. -/
def propsDiagnostics (c : Component) (s : Source) : List Diagnostic :=
  if c.hasOwn s.tree s.framework .props && !c.passesProps s.tree then
    [Finding.propsNotPassed.at c.decl .warning [.takeProps c.decl]]
  else []

/-- What is wrong when there is no builder function. -/
def builderDiagnostics (c : Component) (s : Source) : List Diagnostic :=
  if (c.builder? s).isSome then []
  else (c.decl :: ((c.schema? s .props).map (·.decl)).toList).map fun place =>
    Finding.missingBuilder.at place .weakWarning [.regenerate c.decl]

/-- Reports on a component. -/
def audit (c : Component) (s : Source) (log : Log) : Log :=
  log.addEachNew (c.propsDiagnostics s ++ c.stateDiagnostics s ++ c.builderDiagnostics s)

end Component

/-- Reports on every component. -/
def Source.auditComponents (s : Source) (log : Log) : Log :=
  (Component.all s.tree s.framework).foldl (fun log c => c.audit s log) log

/-! ## Constructions -/

namespace Gaps

/-- The missing fields whose names the framework does not keep for itself. -/
def reportable (g : Gaps) (fw : Framework) : List Field :=
  g.missing.filter fun f => !f.name.any fw.isReserved

/-- What to say of a construction, if anything. Types of parameters that differ come after
missing fields, and before stray writes. -/
def finding? (g : Gaps) (fw : Framework) (propsName : String) : Option Finding :=
  if !g.childrenNotSet then some .childrenNotInitialized
  else if !(g.reportable fw).isEmpty then some (.incomplete propsName)
  else if !g.outdated.isEmpty then some .outdatedParameterTypes
  else if !g.unknown.isEmpty then some .outdatedAssignments
  else none

end Gaps

namespace Construction

/-- What is wrong with the name of a builder function. -/
def nameDiagnostics (c : Construction) (t : Tree) (b : Builder) : List Diagnostic :=
  match c.component.builderName? t with
  | some expected =>
    if t.name? b.function = some expected then []
    else [(Finding.misnamedBuilder expected).at b.function .weakWarning
      [.rename b.function (some expected)]]
  | none => []

/-- What is wrong with a construction that is the body of a builder function. All of it is
mended by synchronising the function. -/
def builderDiagnostics (c : Construction) (s : Source) (g : Gaps) (b : Builder) : List Diagnostic :=
  let fixes := [Fix.synchronize b.function]
  let fields :=
    (g.reportable s.framework).map
      (fun f => Finding.fieldNotInitialized.at f.decl .weakWarning fixes) ++
    g.outdated.map fun o => Finding.outdatedParameterType.at o.field.decl .weakWarning fixes
  let typeName := c.component.argumentName s.tree s.framework .props
  let whole := match g.finding? s.framework typeName with
    | some finding =>
      [finding.at b.function .warning fixes,
       Finding.outdatedBuilder.at c.component.decl .weakWarning fixes] ++
      (if g.unknown.isEmpty then []
        else (c.component.schema? s .props).toList.map fun i =>
          Finding.outdatedAssignments.at i.decl .weakWarning fixes)
    | none => []
  c.nameDiagnostics s.tree b ++ fields ++ whole

/-- What is wrong with a construction anywhere else. -/
def callDiagnostics (c : Construction) (s : Source) (g : Gaps) : List Diagnostic :=
  match g.finding? s.framework (c.component.argumentName s.tree s.framework .props) with
  | some finding => [finding.at ((s.tree.callee? c.call).getD c.call) .warning []]
  | none => []

/-- Reports on a construction of a component with a schema for its props. -/
def audit (c : Construction) (s : Source) (log : Log) : Log :=
  match c.gaps? s with
  | none => log
  | some g =>
    match c.builder? s with
    | some b => log.addEachNew (c.builderDiagnostics s g b)
    | none => log.addEachNew (c.callDiagnostics s g)

end Construction

/-- Reports on every construction. -/
def Source.auditConstructions (s : Source) (log : Log) : Log :=
  ((s.tree.descendants s.tree.root).filterMap (Construction.ofCall? s)).foldl
    (fun log c => c.audit s log) log

/-! ## All audits -/

/-- A kind of audit. -/
inductive Audit where
  | schemas
  | components
  | constructions
deriving DecidableEq

namespace Audit

/-- All audits, in the order in which they are run. -/
def all : List Audit := [schemas, components, constructions]

/-- The name by which a host asks for an audit. -/
def name : Audit → String
  | schemas => "interface"
  | components => "component"
  | constructions => "builder-expression"

/-- Runs an audit. -/
def run (s : Source) : Audit → Log → Log
  | schemas, log => s.auditSchemas log
  | components, log => s.auditComponents log
  | constructions, log => s.auditConstructions log

end Audit

namespace Source

/-- What some audits report, run one after the other. -/
def auditWith (s : Source) (audits : List Audit) : Log :=
  audits.foldl (fun log a => a.run s log) []

/-- What all audits report. -/
def auditAll (s : Source) : Log := s.auditWith Audit.all

end Source

end ComponentAudit
