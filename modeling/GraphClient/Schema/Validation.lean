import GraphClient.Schema.Input

/-!
# Schema rules

Every rule is checked on its own and nothing stops at the first problem.
-/

namespace GraphClient

def emptyDefinition (name what : String) (location : Location) : Diagnostic :=
  .error .emptyDefinition "empty definition" location
    (ticked name ++ " must declare at least one " ++ what)

def checkEmpty (isEmpty : Bool) (name what : String) (location : Location) : Diagnostics :=
  if isEmpty then [emptyDefinition name what location] else []

/-- Names with two underscores in front are reserved. -/
def isReserved (name : String) : Bool :=
  match name.toList with
  | '_' :: '_' :: _ => true
  | _ => false

def checkReserved (name : String) (location : Location) : Diagnostics :=
  if isReserved name then
    [.error .reservedName "reserved name" location
      (ticked name ++ " starts with " ++ ticked "__" ++ ", which is reserved for introspection")]
  else []

def checkRepeated (repeated : Bool) (owner name : String) (location : Location) : Diagnostics :=
  if repeated then [(Problem.duplicateField owner name location).diagnostic] else []

namespace Registry

variable (registry : Registry)

/-- The directives of one element. Their values are constant, so no variable is used. -/
def checkUses (place : DirectiveLocation) (uses : List DirectiveUse) : Diagnostics :=
  (checkDirectives registry place uses).diagnostics

def checkKind (name : String) (allowed : TypeKind → Bool) (expected : String)
    (location : Location) : Diagnostics :=
  match registry.kind? name with
  | none => []
  | some found =>
    if allowed found then [] else [(Problem.kindMismatch name expected found location).diagnostic]

def checkDefault (input : InputValueDefinition) : Diagnostics :=
  match input.defaultValue with
  | none => []
  | some value => (checkValue registry value input.type false input.location).diagnostics

def isMisplacedInput (input : InputValueDefinition) : Bool :=
  match registry.kind? input.type.name with
  | none => false
  | some kind => !kind.isInput

/-- The arguments of a field or directive, or the fields of an input object. Directives and default
are checked unless the type is of the wrong kind. -/
def checkInputValues (owner : String) (inputs : List InputValueDefinition)
    (place : DirectiveLocation) : Diagnostics :=
  (markRepeats InputValueDefinition.name inputs).flatMap fun (input, repeated) =>
    checkReserved input.name input.location ++
    checkRepeated repeated owner input.name input.location ++
    registry.checkKind input.type.name TypeKind.isInput "an input type" input.location ++
    (if registry.isMisplacedInput input then []
      else registry.checkUses place input.directives ++ registry.checkDefault input)

def checkFieldList (owner : String) (fields : List FieldDefinition) : Diagnostics :=
  (markRepeats FieldDefinition.name fields).flatMap fun (field, repeated) =>
    checkReserved field.name field.location ++
    checkRepeated repeated owner field.name field.location ++
    registry.checkKind field.type.name TypeKind.isOutput "an output type" field.location ++
    registry.checkUses .fieldDefinition field.directives ++
    registry.checkInputValues (owner ++ "." ++ field.name) field.arguments .argumentDefinition

/-- The arguments of an interface field, as the implementing field has them. -/
def checkExpectedArguments (problem : String → Diagnostic) (expected actual : FieldDefinition) :
    Diagnostics :=
  expected.arguments.flatMap fun argument =>
    match actual.argument? argument.name with
    | none => [problem ("is missing argument " ++ ticked argument.name)]
    | some found =>
      if found.type = argument.type then []
      else
        [problem ("declares argument " ++ ticked argument.name ++ " as " ++ ticked found.type.text ++
          ", expected " ++ ticked argument.type.text)]

def checkAddedArguments (problem : String → Diagnostic) (expected actual : FieldDefinition) :
    Diagnostics :=
  (actual.arguments.filter fun argument =>
      (expected.argument? argument.name).isNone && argument.isRequired).map fun argument =>
    problem ("adds required argument " ++ ticked argument.name)

def checkInherited (type interface : TypeDefinition) (location : Location)
    (expected : FieldDefinition) : Diagnostics :=
  let problem := fun reason =>
    (Problem.conformance type.name interface.name expected.name reason location).diagnostic
  match type.field? expected.name with
  | none => [problem "is missing"]
  | some actual =>
    (if actual.type.isCovariant expected.type then []
      else
        [problem ("has type " ++ ticked actual.type.text ++ ", which is not compatible with " ++
          ticked expected.type.text)]) ++
    checkExpectedArguments problem expected actual ++
    checkAddedArguments problem expected actual

/-- **A type against an interface that it implements**: it has every field, and it names every
interface that the interface implements. -/
def checkConformance (type interface : TypeDefinition) (location : Location) : Diagnostics :=
  interface.fields.flatMap (checkInherited type interface location) ++
  (interface.implements.filter fun inherited =>
      !type.lists inherited.name && inherited.name != type.name).map fun inherited =>
    .error .conformance "interface conformance" location
      (ticked type.name ++ " implements " ++ ticked interface.name ++ " and must also implement " ++
        ticked inherited.name)

def checkImplemented (type : TypeDefinition) (entry : NamedRef) (repeated : Bool) : Diagnostics :=
  if repeated then
    [(Problem.duplicateName "implemented interface" entry.name entry.location).diagnostic]
  else
    match registry.type? entry.name with
    | none => []
    | some interface =>
      match interface.kind with
      | .interface =>
        if interface.name = type.name then
          [.error .conformance "interface conformance" entry.location
            (ticked type.name ++ " cannot implement itself")]
        else checkConformance type interface entry.location
      | found =>
        [(Problem.kindMismatch entry.name "an interface" found entry.location).diagnostic]

def checkFielded (type : TypeDefinition) : Diagnostics :=
  checkEmpty type.fields.isEmpty type.name "field" type.location ++
  registry.checkFieldList type.name type.fields ++
  (markRepeats NamedRef.name type.implements).flatMap fun (entry, repeated) =>
    registry.checkImplemented type entry repeated

def checkMember (owner : String) (member : NamedRef) (repeated : Bool) : Diagnostics :=
  if repeated then [(Problem.duplicateField owner member.name member.location).diagnostic]
  else registry.checkKind member.name (· == .object) "an object type" member.location

/-- One value of an enum. The three words that are literals cannot be values. -/
def checkEnumValue (owner : String) (value : EnumValueDefinition) (repeated : Bool) :
    Diagnostics :=
  checkReserved value.name value.location ++
  (if ["true", "false", "null"].contains value.name then
      [.error .reservedName "reserved name" value.location
        (ticked value.name ++ " cannot be an enum value")]
    else []) ++
  checkRepeated repeated owner value.name value.location ++
  registry.checkUses .enumValue value.directives

def checkBody (type : TypeDefinition) : Diagnostics :=
  match type.body with
  | .scalar => []
  | .object .. => registry.checkFielded type
  | .interface .. => registry.checkFielded type
  | .union members =>
    checkEmpty members.isEmpty type.name "member" type.location ++
    (markRepeats NamedRef.name members).flatMap fun (member, repeated) =>
      registry.checkMember type.name member repeated
  | .enum values =>
    checkEmpty values.isEmpty type.name "value" type.location ++
    (markRepeats EnumValueDefinition.name values).flatMap fun (value, repeated) =>
      registry.checkEnumValue type.name value repeated
  | .inputObject fields =>
    checkEmpty fields.isEmpty type.name "field" type.location ++
    registry.checkInputValues type.name fields .inputFieldDefinition

def checkType (type : TypeDefinition) : Diagnostics :=
  checkReserved type.name type.location ++
  registry.checkUses type.kind.place type.directives ++
  registry.checkBody type

def checkDirectiveDefinition (directive : DirectiveDefinition) : Diagnostics :=
  checkReserved directive.name directive.location ++
  checkEmpty directive.locations.isEmpty ("@" ++ directive.name) "location" directive.location ++
  registry.checkInputValues ("@" ++ directive.name) directive.arguments .argumentDefinition

/-- **All problems of a built registry.** -/
def validate : Diagnostics :=
  registry.userTypes.flatMap registry.checkType ++
  registry.userDirectives.flatMap registry.checkDirectiveDefinition ++
  (registry.roots.flatMap fun (_, root) =>
    registry.checkKind root.name (· == .object) "an object type" root.location) ++
  registry.checkUses .schema registry.schemaDirectives

end Registry

end GraphClient
