import GraphClient.Operation.Bound

/-!
# Binding selections

Selections are resolved against the type that they select from. What cannot be resolved is reported and
left out.
-/

namespace GraphClient

/-- What selections refer to. -/
structure Scope where
  registry : Registry
  declared : NameMap FragmentDefinition
  bound : NameMap BoundFragment

/-- What binding collects: reports, uses of variables and names of spread fragments. -/
structure Notes where
  diagnostics : Diagnostics := []
  uses : List VariableUse := []
  spreads : List String := []

namespace Notes

instance : Append Notes where
  append a b := ⟨a.diagnostics ++ b.diagnostics, a.uses ++ b.uses, a.spreads ++ b.spreads⟩

def report (diagnostic : Diagnostic) : Notes := { diagnostics := [diagnostic] }

def require (holds : Bool) (diagnostic : Diagnostic) : Notes :=
  if holds then {} else report diagnostic

def ofFindings (findings : Findings) : Notes := ⟨findings.diagnostics, findings.uses, []⟩

end Notes

def selectionError (location : Location) (message : String) : Diagnostic :=
  .error .selectionShape "invalid selection" location message

namespace Scope

variable (scope : Scope)

def directiveNotes (place : DirectiveLocation) (uses : List DirectiveUse) : Notes :=
  .ofFindings (checkDirectives scope.registry place uses)

/-- The definition of a field. On a union, a field can be selected that every member declares with the
same type. -/
def fieldDefinition? (parent name : String) : Option FieldDefinition :=
  match scope.registry.kind? parent with
  | some .object => scope.registry.field? parent name
  | some .interface => scope.registry.field? parent name
  | some .union =>
    match scope.registry.possibleTypes parent with
    | [] => none
    | first :: rest =>
      match scope.registry.field? first name with
      | none => none
      | some field =>
        if rest.all fun member =>
            match scope.registry.field? member name with
            | some other => other.type == field.type
            | none => false
        then some field
        else none
  | _ => none

def deprecationNotes (parent : String) (head : FieldHead) (field : FieldDefinition) : Notes :=
  match DirectiveUse.deprecation? field.directives with
  | none => {}
  | some use =>
    let reason := match use.reason? with
      | some reason => ": " ++ reason
      | none => ""
    .report (.warning .deprecatedUsage "deprecated field" head.location
      (ticked (parent ++ "." ++ head.name) ++ " is deprecated" ++ reason))

def typenameNotes (head : FieldHead) (selections : List Selection) : Notes :=
  .require selections.isEmpty (selectionError head.location
    (ticked typename ++ " is a leaf and cannot have a selection set")) ++
  .require head.arguments.isEmpty (.error .unknownArgument "unknown argument" head.location
    (ticked typename ++ " takes no arguments"))

def fieldNotes (parent : String) (head : FieldHead) (field : FieldDefinition) : Notes :=
  deprecationNotes parent head field ++
  .ofFindings (checkArguments scope.registry (parent ++ "." ++ head.name) field.arguments
    head.arguments head.location)

def isComposite (type : TypeRef) : Bool :=
  match scope.registry.kind? type.name with
  | some kind => kind.isComposite
  | none => false

def missingSelections (owner : String) (type : TypeRef) (location : Location) : Diagnostic :=
  selectionError location
    (ticked owner ++ " has type " ++ ticked type.text ++ " and needs a selection set")

def needlessSelections (owner : String) (type : TypeRef) (location : Location) : Diagnostic :=
  selectionError location
    (ticked owner ++ " has leaf type " ++ ticked type.text ++ " and cannot have a selection set")

/-- Whether some value of type `parent` has type `condition`. -/
def canApply (parent condition : String) : Bool :=
  parent == condition ||
    (scope.registry.possibleTypes condition).any fun type =>
      (scope.registry.possibleTypes parent).contains type

def neverApplies (parent condition : String) (location : Location) : Diagnostic :=
  .error .fragmentCondition "fragment can never apply" location
    ("a fragment on " ++ ticked condition ++ " can never match a " ++ ticked parent)

/-- Why a type cannot be the condition of a fragment; `what` names the fragment. -/
def conditionProblem? (what : String) (condition : NamedRef) : Option Diagnostic :=
  match scope.registry.kind? condition.name with
  | none => some (Problem.unknownType condition.name condition.location).diagnostic
  | some kind =>
    if kind.isComposite then none
    else
      some (.error .fragmentCondition "invalid fragment condition" condition.location
        (what ++ " cannot be declared on " ++ kind.text ++ " " ++ ticked condition.name))

def inlineProblem? (parent : String) (condition : Option NamedRef) (location : Location) :
    Option Diagnostic :=
  match condition with
  | none => none
  | some condition =>
    match scope.conditionProblem? "inline fragment" condition with
    | some problem => some problem
    | none =>
      if scope.canApply parent condition.name then none
      else some (neverApplies parent condition.name location)

/-- A spread. The selections of its fragment are bound already, unless a problem with the fragment was
reported. -/
def bindSpread (parent : String) (spread : Spread) : Option BoundSelection × Notes :=
  let notes := scope.directiveNotes .fragmentSpread spread.directives
  if !scope.declared.contains spread.name then
    (none, notes ++ .report (.error .unknownFragment "unknown fragment" spread.location
      ("fragment " ++ ticked spread.name ++ " is not defined")))
  else
    let notes := notes ++ { spreads := [spread.name] }
    match scope.bound.find? spread.name with
    | none => (none, notes)
    | some fragment =>
      if scope.canApply parent fragment.condition then
        (some (.fragment
            ⟨some fragment.condition, some fragment.name, spread.directives, spread.location⟩
            fragment.selections),
          notes ++ ⟨[], fragment.uses, fragment.spreads⟩)
      else (none, notes ++ .report (neverApplies parent fragment.condition spread.location))

/-- Interfaces and unions are told apart by the name of the type, which is selected in front when no
selection asks for it. -/
def addTypename (parent : String) (selections : List Selection) (bound : List BoundSelection) :
    List BoundSelection :=
  let isAbstract := match scope.registry.kind? parent with
    | some kind => kind.isAbstract
    | none => false
  if isAbstract && !bound.any (BoundSelection.hasKey typename) then
    let location := match selections with
      | [] => .builtin
      | first :: _ => first.location
    .field (.typename none [] location) [] :: bound
  else bound

mutual

/-- **Resolves a selection on the type `parent`.** -/
def bindSelection (parent : String) : Selection → Option BoundSelection × Notes
  | .field head selections =>
    let notes := scope.directiveNotes .field head.directives
    if head.name = typename then
      (some (.field (.typename head.label head.directives head.location) []),
        notes ++ typenameNotes head selections)
    else
      match scope.fieldDefinition? parent head.name with
      | none =>
        (none, notes ++
          .report (Problem.unknownField parent head.name head.location).diagnostic)
      | some field =>
        let notes := notes ++ scope.fieldNotes parent head field
        let bound : BoundField :=
          ⟨head.label, head.name, field.type, head.arguments, head.directives, head.location⟩
        let owner := parent ++ "." ++ head.name
        if scope.isComposite field.type then
          if selections.isEmpty then
            (some (.field bound []),
              notes ++ .report (missingSelections owner field.type head.location))
          else
            let (inner, more) := bindEach field.type.name selections
            (some (.field bound (scope.addTypename field.type.name selections inner)),
              notes ++ more)
        else
          (some (.field bound []),
            notes ++ .require selections.isEmpty
              (needlessSelections owner field.type head.location))
  | .spread spread => scope.bindSpread parent spread
  | .inline condition directives selections location =>
    let notes := scope.directiveNotes .inlineFragment directives
    match scope.inlineProblem? parent condition location with
    | some problem => (none, notes ++ .report problem)
    | none =>
      let name := condition.map NamedRef.name
      let target := name.getD parent
      let (inner, more) := bindEach target selections
      (some (.fragment ⟨name, none, directives, location⟩
          (scope.addTypename target selections inner)),
        notes ++ more)

def bindEach (parent : String) : List Selection → List BoundSelection × Notes
  | [] => ([], {})
  | selection :: rest =>
    let (first, notes) := bindSelection parent selection
    let (others, more) := bindEach parent rest
    (first.toList ++ others, notes ++ more)

end

/-- **A selection set on the type `parent`.** -/
def bindSet (parent : String) (selections : List Selection) : List BoundSelection × Notes :=
  let (bound, notes) := scope.bindEach parent selections
  (scope.addTypename parent selections bound, notes)

end Scope

end GraphClient
