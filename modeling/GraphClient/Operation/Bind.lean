import GraphClient.Document
import GraphClient.Operation.Binding
import GraphClient.Operation.FragmentOrder
import GraphClient.Operation.Shape

/-!
# Binding operations

All fragments of a run share one scope. Each is bound once, behind those that it spreads; then every
operation is bound on its own.
-/

namespace GraphClient

def orderedFragments (documents : List Document) : List FragmentDefinition :=
  sortBy (fun a b => compare a.location b.location) (documents.flatMap Document.fragments)

/-- The fragments by name; the first of a name counts. -/
def declaredFragments (documents : List Document) : NameMap FragmentDefinition :=
  .ofList ((firsts FragmentDefinition.name (orderedFragments documents)).map fun fragment =>
    (fragment.name, fragment))

def repeatedFragments (documents : List Document) : Diagnostics :=
  (markRepeats FragmentDefinition.name (orderedFragments documents)).filterMap
    fun (fragment, repeated) =>
      if repeated then
        some (Problem.duplicateName "fragment" fragment.name fragment.location).diagnostic
      else none

namespace Scope

def bindFragment (scope : Scope) (fragment : FragmentDefinition) :
    Option BoundFragment × Diagnostics :=
  match scope.conditionProblem? ("fragment " ++ ticked fragment.name) fragment.condition with
  | some problem => (none, [problem])
  | none =>
    let (selections, more) := scope.bindSet fragment.condition.name fragment.selections
    let notes := scope.directiveNotes .fragmentDefinition fragment.directives ++ more
    (some {
        name := fragment.name
        condition := fragment.condition.name
        directives := fragment.directives
        selections := selections
        uses := notes.uses
        spreads := .ofList notes.spreads
        location := fragment.location },
      notes.diagnostics)

def bindFragments (scope : Scope) : List String → Scope × Diagnostics
  | [] => (scope, [])
  | name :: rest =>
    match scope.declared.find? name with
    | none => scope.bindFragments rest
    | some fragment =>
      let (bound, diagnostics) := scope.bindFragment fragment
      let grown := match bound with
        | some bound => { scope with bound := scope.bound.insert bound.name bound }
        | none => scope
      let (last, more) := grown.bindFragments rest
      (last, diagnostics ++ more)

/-- **The scope of a run**: every declared fragment, bound behind those that it spreads. -/
def ofDocuments (registry : Registry) (documents : List Document) : Scope × Diagnostics :=
  let declared := declaredFragments documents
  let (order, cycles) := fragmentOrder declared
  let (scope, diagnostics) := bindFragments ⟨registry, declared, []⟩ order
  (scope, repeatedFragments documents ++ cycles ++ diagnostics)

def variableTypeDiagnostics (scope : Scope) (definition : VariableDefinition) : Diagnostics :=
  match scope.registry.kind? definition.type.name with
  | none => [(Problem.unknownType definition.type.name definition.location).diagnostic]
  | some kind =>
    if kind.isInput then
      match definition.defaultValue with
      | none => []
      | some value =>
        (checkValue scope.registry value definition.type false definition.location).diagnostics
    else
      [(Problem.kindMismatch definition.type.name "an input type" kind
        definition.location).diagnostic]

def variableDiagnostics (scope : Scope) (definitions : List VariableDefinition) : Diagnostics :=
  (markRepeats VariableDefinition.name definitions).flatMap fun (definition, repeated) =>
    if repeated then
      [(Problem.duplicateName "variable" ("$" ++ definition.name) definition.location).diagnostic]
    else
      (checkDirectives scope.registry .variableDefinition definition.directives).diagnostics ++
        scope.variableTypeDiagnostics definition

end Scope

def boundVariables (definitions : List VariableDefinition) : List BoundVariable :=
  (firsts VariableDefinition.name definitions).map fun definition =>
    ⟨definition.name, definition.type, definition.defaultValue, definition.location⟩

def BoundVariable.hasDefault (definition : BoundVariable) : Bool :=
  match definition.defaultValue with
  | some value => !value.isNull
  | none => false

def useDiagnostics (parameters : List BoundVariable) (use : VariableUse) : Diagnostics :=
  match parameters.find? fun definition => definition.name == use.name with
  | none =>
    [.error .undefinedVariable "undefined variable" use.location
      ("variable " ++ ticked ("$" ++ use.name) ++ " is not declared by the operation")]
  | some definition =>
    if definition.type.allowsUse definition.hasDefault use.expected use.hasDefault then []
    else
      [.error .variableMismatch "variable type mismatch" use.location
        ("variable " ++ ticked ("$" ++ use.name) ++ " of type " ++ ticked definition.type.text ++
          " cannot be used where " ++ ticked use.expected.text ++ " is expected")]

def unusedVariables (parameters : List BoundVariable) (uses : List VariableUse) : Diagnostics :=
  (parameters.filter fun definition => !(uses.map VariableUse.name).contains definition.name).map
    fun definition =>
      .warning .unusedVariable "unused variable" definition.location
        ("variable " ++ ticked ("$" ++ definition.name) ++ " is never used")

/-- **Binds one operation.** An operation needs a name and a root type. -/
def Scope.bindOperation (scope : Scope) (operation : OperationDefinition) :
    Option BoundOperation × Diagnostics :=
  match operation.name, scope.registry.rootType operation.kind with
  | none, _ =>
    (none, [.error .anonymousOperation "anonymous operation" operation.location
      "operations need a name to generate code for"])
  | some _, none =>
    (none, [.error .missingRoot "missing root type" operation.location
      ("the schema has no " ++ operation.kind.text ++ " root type")])
  | some name, some root =>
    let parameters := boundVariables operation.parameters
    let (selections, more) := scope.bindSet root operation.selections
    let notes := scope.directiveNotes operation.kind.place operation.directives ++ more
    (some {
        name := name
        kind := operation.kind
        root := root
        parameters := parameters
        directives := operation.directives
        selections := selections
        shape := scope.registry.resultShape root selections
        fragments := .ofList notes.spreads
        location := operation.location },
      scope.variableDiagnostics operation.parameters ++ notes.diagnostics ++
        notes.uses.flatMap (useDiagnostics parameters) ++ unusedVariables parameters notes.uses ++
        scope.registry.conflicts root selections)

/-- The operations of all documents by place, each marked when its name is taken. -/
def orderedOperations (documents : List Document) : List (OperationDefinition × Bool) :=
  markNamed [] (sortBy (fun a b => compare a.location b.location)
    (documents.flatMap Document.operations))
where
  /-- Marks operations whose name is in `seen`; operations without a name are never marked. -/
  markNamed (seen : List String) : List OperationDefinition → List (OperationDefinition × Bool)
    | [] => []
    | operation :: rest =>
      match operation.name with
      | none => (operation, false) :: markNamed seen rest
      | some name => (operation, seen.contains name) :: markNamed (name :: seen) rest

def repeatedOperations (operations : List (OperationDefinition × Bool)) : Diagnostics :=
  operations.filterMap fun (operation, repeated) =>
    match operation.name with
    | some name =>
      if repeated then some (Problem.duplicateName "operation" name operation.location).diagnostic
      else none
    | none => none

/-- All operations and fragments of a run. -/
structure Bindings where
  operations : List BoundOperation
  fragments : NameMap BoundFragment

def unusedFragments (declared : NameMap FragmentDefinition) (operations : List BoundOperation) :
    Diagnostics :=
  (declared.filter fun (name, _) => !operations.any fun operation =>
      operation.fragments.contains name).map fun (name, fragment) =>
    .warning .unusedFragment "unused fragment" fragment.location
      ("fragment " ++ ticked name ++ " is never used")

/-- **Resolves all operations and fragments.** -/
def Bindings.ofDocuments (registry : Registry) (documents : List Document) :
    Bindings × Diagnostics :=
  let (scope, fragmentProblems) := Scope.ofDocuments registry documents
  let operations := orderedOperations documents
  let results := (operations.filter fun entry => !entry.2).map fun entry =>
    scope.bindOperation entry.1
  let bound := sortBy (fun a b => compare a.name b.name) (results.filterMap Prod.fst)
  (⟨bound, scope.bound⟩,
    fragmentProblems ++ repeatedOperations operations ++ results.flatMap Prod.snd ++
      unusedFragments scope.declared bound)

end GraphClient
