import GraphClient.Client.KotlinModule
import GraphClient.Client.KotlinSupport
import GraphClient.Client.Plan
import GraphClient.Client.Scalar

/-!
# Kotlin clients

Types become data classes, enum classes and sealed interfaces that kotlinx.serialization reads and
writes.
-/

namespace GraphClient.Kotlin

def propertyName (name : String) : String :=
  if name = typename then "typename" else identifier name

variable (target : Target)

/-- The type of values of a reference. -/
def typeOf (type : TypeRef) : TypeExpr :=
  .wrap type ((target.native? type.name).getD type.name)

def optionalType (type : TypeRef) : TypeExpr :=
  if type.isNonNull then .nullable (typeOf target type) else typeOf target type

def propertyImports (properties : List Property) : List String :=
  if properties.any Property.isRenamed then [serialName] else []

def mappedScalar (doc : Doc) (name : String) (mapping : ScalarMapping) : Module :=
  match mapping.serializer.or mapping.deserializer with
  | some hook =>
    ⟨serializable :: mapping.source.toList,
      [.alias doc name ("@Serializable(with = " ++ hook ++ "::class) " ++ mapping.type)]⟩
  | none => ⟨mapping.source.toList, [.alias doc name mapping.type]⟩

def enumModule (doc : Doc) (name : String) (values : List EnumValueDefinition) : Module where
  imports := [serializable]
  items := [.enumClass doc name (values.map fun value =>
    (.ofElement value.description value.directives, identifier value.name))]

def inheritedFields (implements : List NamedRef) : List String :=
  implements.flatMap fun entry =>
    match target.registry.type? entry.name with
    | some interface => interface.fields.map FieldDefinition.name
    | none => []

def fieldProperties (implements : List NamedRef) (fields : List FieldDefinition) : List Property :=
  fields.map fun field =>
    { doc := .ofElement field.description field.directives
      name := propertyName field.name
      wire := field.name
      overrides := (inheritedFields target implements).contains field.name
      type := typeOf target field.type }

/-- The interfaces and unions that an object belongs to, by name. -/
def supertypes (name : String) (implements : List NamedRef) : List String :=
  NameSet.ofList (implements.map NamedRef.name ++
    (target.registry.userTypes.filter fun type =>
      match type.body with
      | .union members => members.any fun member => member.name == name
      | _ => false).map TypeDefinition.name)

def objectModule (doc : Doc) (name : String) (implements : List NamedRef)
    (fields : List FieldDefinition) : Module where
  imports := [serializable, serialName]
  items := [.dataClass doc (some name) name (fieldProperties target implements fields)
    (supertypes target name implements)]

def interfaceModule (doc : Doc) (name : String) (implements : List NamedRef)
    (fields : List FieldDefinition) : Module :=
  let properties := fieldProperties target implements fields
  ⟨serializable :: propertyImports properties,
    [.sealedInterface doc name (implements.map NamedRef.name) properties]⟩

def inputType (input : InputValueDefinition) : TypeExpr :=
  if input.isRequired then typeOf target input.type else optionalType target input.type

def inputProperty (input : InputValueDefinition) : Property where
  doc := .ofElement input.description input.directives
  name := identifier input.name
  wire := input.name
  type := inputType target input

def inputModule (doc : Doc) (name : String) (fields : List InputValueDefinition) : Module where
  imports := serializable :: propertyImports (fields.map (inputProperty target))
  items := [.inputClass doc name (fields.map (inputProperty target)) (fields.map fun field =>
    ⟨identifier field.name, field.isRequired, inputType target field⟩)]

/-- The file of a schema type. -/
def typeModule (type : TypeDefinition) : Module :=
  let doc : Doc := { description := type.description }
  match type.body with
  | .scalar =>
    match target.scalar? type.name with
    | some (.mapped mapping) => mappedScalar doc type.name mapping
    | _ => ⟨[jsonElement], [.alias doc type.name "JsonElement"]⟩
  | .enum values => enumModule doc type.name values
  | .object implements fields => objectModule target doc type.name implements fields
  | .interface implements fields => interfaceModule target doc type.name implements fields
  | .union _ => ⟨[serializable], [.sealedInterface doc type.name [] []]⟩
  | .inputObject fields => inputModule target doc type.name fields

def planProperty (plan : FieldPlan) : Property where
  name := propertyName plan.field.key
  wire := plan.field.key
  overrides := plan.isInherited
  type := match plan.nested with
    | some name => .wrap plan.field.type name
    | none => typeOf target plan.field.type

def objectPlanModule (plan : ObjectPlan) : Module :=
  let properties := plan.ownFields.map (planProperty target)
  let keyword := if plan.objectType.isSome then "object" else "class"
  ⟨(if plan.objectType.isSome then [serialName] else []) ++ propertyImports properties,
    [if properties.isEmpty then .bare plan.objectType keyword plan.name plan.parent.toList
      else .dataClass {} plan.objectType plan.name properties plan.parent.toList]⟩

def unionPlanModule (plan : UnionPlan) : Module :=
  let properties :=
    (plan.common.filter fun field => !field.isDiscriminator).map (planProperty target)
  ⟨propertyImports properties, [.sealedInterface {} plan.name [] properties]⟩

def planModule : ShapePlan → Module
  | .object plan => objectPlanModule target plan
  | .union plan => unionPlanModule target plan

def variableProperty (entry : BoundVariable) : Property where
  name := identifier entry.name
  wire := entry.name
  type :=
    if entry.type.isNonNull && entry.defaultValue.isNone then typeOf target entry.type
    else optionalType target entry.type

def variablesItem (operation : BoundOperation) : Item :=
  let name := operation.name ++ "Variables"
  if operation.parameters.isEmpty then .bare none "class" name []
  else .dataClass {} none name (operation.parameters.map (variableProperty target)) []

/-- **The file of an operation**, whose response types are planned with the given root. -/
def operationModule (operation : BoundOperation) (document root : String)
    (plans : List ShapePlan) : Module :=
  let modules := plans.map (planModule target)
  { imports := [serializable, jsonElement] ++
      propertyImports (operation.parameters.map (variableProperty target)) ++
      modules.flatMap Module.imports
    items := .operation operation.name document root (!operation.parameters.isEmpty) ::
      variablesItem target operation :: modules.flatMap Module.items }

def typePath (name : String) : String := "types/" ++ name ++ ".kt"

def operationPath (name : String) : String := "operations/" ++ name ++ ".kt"

def supportModule : Module where
  imports := ["kotlinx.serialization.DeserializationStrategy",
    "kotlinx.serialization.ExperimentalSerializationApi", "kotlinx.serialization.KSerializer",
    serializable, "kotlinx.serialization.json.Json", jsonElement]
  items := [.fixed supportLines]

def indexModule (operations : List String) : Module := ⟨[], [.documents operations]⟩

end GraphClient.Kotlin
