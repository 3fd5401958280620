import GraphClient.Client.Plan
import GraphClient.Client.Scalar
import GraphClient.Client.TypeScriptModule
import GraphClient.Client.TypeScriptSupport

/-!
# TypeScript clients

Types become interfaces and unions of strings. Responses are checked by decoders that are put together
from the functions of the support file.
-/

namespace GraphClient.TypeScript

/-- The folders that files refer from. -/
inductive Folder
  | types
  | operations
deriving DecidableEq

def Folder.fileOf : Folder → String → String
  | .types, name => "./" ++ name
  | .operations, name => "../types/" ++ name

def support (name : String) : Import := ⟨"../runtime", name⟩

variable (target : Target)

/-- The type of values of a reference. -/
def typeOf (type : TypeRef) : TypeExpr :=
  .wrap type ((target.native? type.name).getD type.name)

/-- What the type of a reference needs, in a file that declares `current` itself. -/
def typeImports (folder : Folder) (current : String) (type : TypeRef) : List Import :=
  if (target.native? type.name).isSome || type.name == current then []
  else [⟨folder.fileOf type.name, "type " ++ type.name⟩]

def nativeDecoder? : String → Option String
  | "String" => some "expectString"
  | "ID" => some "expectString"
  | "Int" => some "expectInt"
  | "Float" => some "expectFloat"
  | "Boolean" => some "expectBoolean"
  | _ => none

def leafDecoder (folder : Folder) (name : String) : Import :=
  match nativeDecoder? name with
  | some function =>
    if (target.native? name).isSome then support function
    else ⟨folder.fileOf name, "decode" ++ name⟩
  | none => ⟨folder.fileOf name, "decode" ++ name⟩

/-- The decoder of a reference, given that of its base. -/
def decoder (type : TypeRef) (leaf : String) : Call :=
  type.wrap (.apply "list") (.apply "nullable") (.name leaf)

/-- The encoder of a named type; values of other types are sent as they are. -/
def leafEncoder? (name : String) : Option String :=
  match target.registry.kind? name with
  | some .scalar => if (target.native? name).isSome then none else some ("encode" ++ name)
  | some .inputObject => some ("encode" ++ name)
  | _ => none

/-- The encoder of a reference, if it needs one. -/
def encoder? (type : TypeRef) : Option Call :=
  (leafEncoder? target type.name).map fun leaf =>
    type.wrap (.apply "encodeList") (.apply "encodeNullable") (.name leaf)

/-- What the encoder of a reference needs, in a file that declares the one of `current` itself. -/
def encoderImports (folder : Folder) (current : String) (type : TypeRef) : List Import :=
  match leafEncoder? target type.name, encoder? target type with
  | some leaf, some encoder =>
    (if type.name == current then [] else [⟨folder.fileOf type.name, leaf⟩]) ++
      encoder.applied.map support
  | _, _ => []

def isIdentifier (text : String) : Bool :=
  match text.toList with
  | [] => false
  | c :: rest =>
    (c.isAlpha || c == '_' || c == '$') && rest.all fun d => d.isAlphanum || d == '_' || d == '$'

def mappingImports (mapping : ScalarMapping) : List Import :=
  match mapping.source with
  | none => []
  | some source =>
    (if isIdentifier mapping.type then [⟨source, "type " ++ mapping.type⟩] else []) ++
      (mapping.serializer.toList ++ mapping.deserializer.toList).map fun hook => ⟨source, hook⟩

def scalarFunctions (name decode encode : String) : List Item :=
  [.constant {} ("decode" ++ name) (": Decoder<" ++ name ++ ">") decode,
    .constant {} ("encode" ++ name) (": Encoder<" ++ name ++ ">") ("(value) => " ++ encode)]

def mappedScalar (doc : Doc) (name : String) (mapping : ScalarMapping) : Module where
  imports := ["type Decoder", "type Encoder", "expectPresent"].map support ++
    mappingImports mapping ++
    (if mapping.serializer.isNone then [support "type JsonValue"] else [])
  sections :=
    let decode := match mapping.deserializer with
      | some hook => "(value, path) => " ++ hook ++ "(expectPresent(value, path))"
      | none => "(value, path) => expectPresent(value, path) as unknown as " ++ name
    let encode := match mapping.serializer with
      | some hook => hook ++ "(value)"
      | none => "value as unknown as JsonValue"
    [[.alias doc name mapping.type], scalarFunctions name decode encode]

def jsonScalar (doc : Doc) (name : String) : Module where
  imports := ["type Decoder", "type Encoder", "expectPresent", "type JsonValue"].map support
  sections := [[.alias doc name "JsonValue"], scalarFunctions name "expectPresent" "value"]

def fieldMembers (withDoc : Bool) (fields : List FieldDefinition) : List Member :=
  fields.map fun field =>
    { doc := if withDoc then .ofElement field.description field.directives else {}
      name := field.name
      type := typeOf target field.type }

def fieldImports (current : String) (fields : List FieldDefinition) : List Import :=
  fields.flatMap fun field => typeImports target .types current field.type

def objectModule (doc : Doc) (name : String) (fields : List FieldDefinition) : Module where
  imports := fieldImports target name fields
  sections :=
    [[.interface doc name
      ({ name := typename, type := .literal name } :: fieldMembers target true fields)]]

def abstractModule (doc : Doc) (type : TypeDefinition) : Module :=
  let possible := target.registry.possibleTypes type.name
  if possible.isEmpty then
    match type.body with
    | .interface _ fields =>
      ⟨fieldImports target type.name fields,
        [[.interface doc type.name (fieldMembers target false fields)]]⟩
    | _ => ⟨[], [[.alias doc type.name "never"]]⟩
  else
    ⟨possible.map fun member => ⟨Folder.fileOf .types member, "type " ++ member⟩,
      [[.alias doc type.name (String.intercalate " | " possible)]]⟩

def enumModule (doc : Doc) (name : String) (values : List EnumValueDefinition) : Module where
  imports := [support "type Decoder", support "expectOneOf"]
  sections :=
    [[.constant doc (name ++ "Values") ""
        ("[" ++ String.intercalate ", " (values.map fun value => "\"" ++ value.name ++ "\"") ++
          "] as const")],
      [.alias {} name ("(typeof " ++ name ++ "Values)[number]")],
      [.constant {} ("decode" ++ name) (": Decoder<" ++ name ++ ">")
        ("expectOneOf(" ++ name ++ "Values)")]]

def inputMember (input : InputValueDefinition) : Member where
  doc := .ofElement input.description input.directives
  name := input.name
  isOptional := !input.isRequired
  type := typeOf target input.type

def inputEntry (input : InputValueDefinition) : EncodedEntry :=
  ⟨input.name, "value." ++ input.name, encoder? target input.type, !input.isRequired⟩

def inputModule (doc : Doc) (name : String) (fields : List InputValueDefinition) : Module where
  imports := [support "type JsonValue", support "compact"] ++
    fields.flatMap fun field =>
      typeImports target .types name field.type ++ encoderImports target .types name field.type
  sections :=
    [[.interface doc name (fields.map (inputMember target))],
      [.builder name
        ((fields.filter fun field => field.isRequired).map (inputMember target))
        ((fields.filter fun field => !field.isRequired).map (inputMember target))],
      [.inputEncoder name (fields.map (inputEntry target))]]

/-- The file of a schema type. -/
def typeModule (type : TypeDefinition) : Module :=
  let doc : Doc := { description := type.description }
  match type.body with
  | .scalar =>
    match target.scalar? type.name with
    | some (.mapped mapping) => mappedScalar doc type.name mapping
    | _ => jsonScalar doc type.name
  | .enum values => enumModule doc type.name values
  | .object _ fields => objectModule target doc type.name fields
  | .interface _ _ => abstractModule target doc type
  | .union _ => abstractModule target doc type
  | .inputObject fields => inputModule target doc type.name fields

def planFieldType (plan : FieldPlan) : TypeExpr :=
  match plan.nested with
  | some name => .wrap plan.field.type name
  | none =>
    if plan.field.name = typename then .wrap plan.field.type "string"
    else typeOf target plan.field.type

def planFieldLeaf (plan : FieldPlan) : String :=
  match plan.nested with
  | some name => "decode" ++ name
  | none =>
    if plan.field.name = typename then "expectString"
    else (leafDecoder target .operations plan.field.type.name).name

def planFieldDecoder (plan : FieldPlan) : Call :=
  decoder plan.field.type (planFieldLeaf target plan)

def planFieldImports (plan : FieldPlan) : List Import :=
  (match plan.nested with
    | some _ => []
    | none =>
      if plan.field.name = typename then [support "expectString"]
      else
        leafDecoder target .operations plan.field.type.name ::
          typeImports target .operations "" plan.field.type) ++
    support "field" :: (planFieldDecoder target plan).applied.map support

def tag? (plan : ObjectPlan) (field : FieldPlan) : Option String :=
  if field.isDiscriminator then plan.objectType else none

def objectPlanModule (plan : ObjectPlan) : Module where
  imports := support "expectObject" ::
    plan.fields.flatMap fun field =>
      match tag? plan field with
      | some _ => []
      | none => planFieldImports target field
  sections :=
    [[.interface {} plan.name (plan.fields.map fun field =>
        { name := field.field.key
          type := match tag? plan field with
            | some type => .literal type
            | none => planFieldType target field })],
      [.objectDecoder plan.name (plan.fields.map fun field =>
        (field.field.key, match tag? plan field with
          | some type => .tag type
          | none => .field (planFieldDecoder target field)))]]

def unionPlanModule (plan : UnionPlan) : Module where
  imports := ["expectObject", "typenameOf", "ShapeMismatchError"].map support
  sections :=
    [[.alias {} plan.name (String.intercalate " | " (plan.variants.map Prod.snd))],
      [.unionDecoder plan.name plan.variants]]

def planModule : ShapePlan → Module
  | .object plan => objectPlanModule target plan
  | .union plan => unionPlanModule plan

def templateBody : List Char → List Char
  | [] => []
  | '$' :: '\x7b' :: rest => '\\' :: '$' :: '\x7b' :: templateBody rest
  | c :: rest => if c == '\\' || c == '`' then '\\' :: c :: templateBody rest
    else c :: templateBody rest

def templateLiteral (text : String) : String :=
  "`" ++ String.ofList (templateBody text.toList) ++ "`"

def isOptional (entry : BoundVariable) : Bool :=
  !entry.type.isNonNull || entry.defaultValue.isSome

def variablesItem (operation : BoundOperation) : Item :=
  if operation.parameters.isEmpty then
    .alias {} (operation.name ++ "Variables") "Record<string, never>"
  else
    .interface {} (operation.name ++ "Variables") (operation.parameters.map fun entry =>
      { name := entry.name, isOptional := isOptional entry, type := typeOf target entry.type })

def variableEntry (entry : BoundVariable) : EncodedEntry :=
  ⟨entry.name, "variables." ++ entry.name, encoder? target entry.type, isOptional entry⟩

def variableImports (entries : List BoundVariable) : List Import :=
  (if entries.isEmpty then [] else [support "compact"]) ++
    entries.flatMap fun entry =>
      typeImports target .operations "" entry.type ++
        encoderImports target .operations "" entry.type

/-- **The file of an operation**, whose response types are planned with the given root. -/
def operationModule (operation : BoundOperation) (document root : String)
    (plans : List ShapePlan) : Module :=
  let modules := plans.map (planModule target)
  { imports := support "type GraphQLRequest" :: variableImports target operation.parameters ++
      modules.flatMap Module.imports
    sections :=
      [[.constant {} (operation.name ++ "Document") "" (templateLiteral document)],
        [variablesItem target operation]] ++
      modules.flatMap Module.sections ++
      [[.request (Text.camelCase operation.name ++ "Request") operation.name
          (operation.parameters.map (variableEntry target))],
        [.responseDecoder operation.name root]] }

def typePath (name : String) : String := "types/" ++ name ++ ".ts"

def operationPath (name : String) : String := "operations/" ++ name ++ ".ts"

def supportText : String :=
  Layout.render "  " (.line header :: .gap :: supportLines.map .line)

/-- The index exports what the support file and the files at the given places export. -/
def indexText (places : List String) : String :=
  Layout.render "  " (.line header :: .gap ::
    ("runtime" :: places).map fun place => .line ("export * from \"./" ++ place ++ "\";"))

end GraphClient.TypeScript
