import GraphClient.Client.Plan
import GraphClient.Client.RustModule
import GraphClient.Client.RustSupport
import GraphClient.Client.Scalar

/-!
# Rust clients

Types become structs and enums that serde reads and writes. Interfaces and unions are enums, told apart
by the name of the object type.
-/

namespace GraphClient.Rust

def fieldName (name : String) : String :=
  if name = typename then "typename" else identifier (Text.snakeCase name)

def moduleName (name : String) : String := identifier (Text.snakeCase name)

/-- The greatest number of marks in a row behind a quote; `run` counts those just read, and is none
when no quote leads to them. -/
def longestRun (run : Option Nat) : List Char → Nat
  | [] => 0
  | c :: rest =>
    if c = '"' then longestRun (some 0) rest
    else
      match run with
      | some n =>
        if c = '#' then max (n + 1) (longestRun (some (n + 1)) rest) else longestRun none rest
      | none => longestRun none rest

/-- A literal that holds the text as it is: more marks around it than behind any quote in it. -/
def rawString (text : String) : String :=
  let marks := String.ofList (List.replicate (longestRun none text.toList + 1) '#')
  "r" ++ marks ++ "\"" ++ text ++ "\"" ++ marks

variable (target : Target)

def namedType (name : String) : TypeExpr :=
  .named ((target.native? name).getD (identifier name))

/-- The type of values of a reference. -/
def typeOf (type : TypeRef) : TypeExpr := .wrap type (namedType target type.name)

/-- Whether values of a reference are boxed. Types can refer to each other in a circle, so a value is
held by a box unless a list holds it already. -/
def isBoxed (type : TypeRef) : Bool :=
  !type.isList &&
    match target.registry.kind? type.name with
    | some .object => true
    | some .interface => true
    | some .union => true
    | some .inputObject => true
    | _ => false

def recordType (type : TypeRef) : TypeExpr :=
  .wrap type
    (if isBoxed target type then .boxed (namedType target type.name)
      else namedType target type.name)

def optionalType (type : TypeRef) : TypeExpr :=
  if type.isNonNull then .option (recordType target type) else recordType target type

def typeUses : List String :=
  ["#[allow(unused_imports)]", "use super::*;", "use serde::\x7bDeserialize, Serialize\x7d;"]

def mappedScalar (doc : Doc) (name : String) (mapping : ScalarMapping) : Module where
  uses := (mapping.source.map fun source => "use " ++ source ++ ";").toList
  items :=
    if mapping.hasHooks then
      [.wrapper doc name mapping.type mapping.serializer mapping.deserializer]
    else [.alias doc name mapping.type]

def enumItem (doc : Doc) (name : String) (values : List EnumValueDefinition) : Item :=
  .enum doc [deriveEnum] (identifier name) (values.map fun value =>
    { doc := .ofElement value.description value.directives
      name := identifier (Text.pascalCase value.name)
      wire := value.name })

def recordFields (fields : List FieldDefinition) : List Field :=
  fields.map fun field =>
    { doc := .ofElement field.description field.directives
      name := fieldName field.name
      wire := field.name
      type := recordType target field.type }

def tagAttribute : String := "#[serde(tag = \"" ++ typename ++ "\")]"

def abstractItem (doc : Doc) (type : TypeDefinition) : Item :=
  let possible := target.registry.possibleTypes type.name
  if possible.isEmpty then
    match type.body with
    | .interface _ fields =>
      .struct doc deriveRecord (identifier type.name) (recordFields target fields)
    | _ => .enum doc [deriveRecord] (identifier type.name) []
  else
    .enum doc [deriveRecord, tagAttribute] (identifier type.name) (possible.map fun member =>
      { name := identifier member, wire := member, payload := some (identifier member) })

def inputStructField (input : InputValueDefinition) : Field where
  doc := .ofElement input.description input.directives
  name := fieldName input.name
  wire := input.name
  mark :=
    if input.isRequired then none
    else some "#[serde(default, skip_serializing_if = \"Option::is_none\")]"
  type := if input.isRequired then recordType target input.type else optionalType target input.type

def inputMethodField (input : InputValueDefinition) : InputField where
  name := fieldName input.name
  words := Text.snakeCase input.name
  isRequired := input.isRequired
  type := recordType target (if input.isRequired then input.type else input.type.nonNull)

def inputItems (doc : Doc) (name : String) (fields : List InputValueDefinition) : List Item :=
  [.struct doc deriveRecord (identifier name) (fields.map (inputStructField target)),
    .inputMethods (identifier name) (fields.map (inputMethodField target))]

/-- The file of a schema type. -/
def typeModule (type : TypeDefinition) : Module :=
  let doc : Doc := { description := type.description }
  match type.body with
  | .scalar =>
    match target.scalar? type.name with
    | some (.mapped mapping) => mappedScalar doc (identifier type.name) mapping
    | _ => ⟨[], [.alias doc (identifier type.name) "serde_json::Value"]⟩
  | .enum values => ⟨typeUses, [enumItem doc type.name values]⟩
  | .object _ fields =>
    ⟨typeUses, [.struct doc deriveRecord (identifier type.name) (recordFields target fields)]⟩
  | .interface _ _ => ⟨typeUses, [abstractItem target doc type]⟩
  | .union _ => ⟨typeUses, [abstractItem target doc type]⟩
  | .inputObject fields => ⟨typeUses, inputItems target doc type.name fields⟩

def planFieldType (plan : FieldPlan) : TypeExpr :=
  match plan.nested with
  | some name => .wrap plan.field.type (.named name)
  | none => typeOf target plan.field.type

def planItem : ShapePlan → Item
  | .object plan =>
    .struct {} deriveRecord plan.name (plan.ownFields.map fun field =>
      { name := fieldName field.field.key
        wire := field.field.key
        type := planFieldType target field })
  | .union plan =>
    .enum {} [deriveRecord, tagAttribute] plan.name (plan.variants.map fun (type, variantName) =>
      { name := identifier type, wire := type, payload := some variantName })

def variableField (entry : BoundVariable) : Field :=
  let isRequired := entry.type.isNonNull && entry.defaultValue.isNone
  { name := fieldName entry.name
    wire := entry.name
    mark :=
      if isRequired then none else some "#[serde(skip_serializing_if = \"Option::is_none\")]"
    type := if isRequired then recordType target entry.type else optionalType target entry.type }

/-- **The file of an operation**, whose response types are planned with the given root. -/
def operationModule (operation : BoundOperation) (document root : String)
    (plans : List ShapePlan) : Module :=
  let words := Text.snakeCase operation.name
  let constant := Text.screamingCase operation.name ++ "_DOCUMENT"
  let typeName := operation.name ++ "Variables"
  { uses :=
      ["use super::super::runtime::\x7bGraphQLRequest, ShapeMismatchError\x7d;",
        "#[allow(unused_imports)]", "use super::super::types::*;",
        "use serde::\x7bDeserialize, Serialize\x7d;"]
    items :=
      [.constant constant (rawString document),
        .struct {} deriveVariables typeName (operation.parameters.map (variableField target))] ++
      plans.map (planItem target) ++
      [.request words operation.name constant typeName,
        .responseDecoder words operation.name root] }

def typePath (name : String) : String := "types/" ++ Text.snakeCase name ++ ".rs"

def operationPath (name : String) : String := "operations/" ++ Text.snakeCase name ++ ".rs"

def supportText : String :=
  Layout.render "    " (.line header :: .gap :: supportLines.map .line)

def indexText (package : String) (types operations : List String) : String :=
  Layout.render "    " (Layout.separated
    [[.line header, .line "//!", .line ("//! Client for the `" ++ package ++ "` schema.")],
      [.line "pub mod runtime;"],
      Layout.braces "pub mod types"
        ((types.map fun name => .line ("pub mod " ++ moduleName name ++ ";")) ++
          (if types.isEmpty then [] else [.gap]) ++
          types.map fun name =>
            .line ("pub use self::" ++ moduleName name ++ "::" ++ identifier name ++ ";")),
      Layout.braces "pub mod operations"
        (operations.map fun name => .line ("pub mod " ++ moduleName name ++ ";"))])

end GraphClient.Rust
