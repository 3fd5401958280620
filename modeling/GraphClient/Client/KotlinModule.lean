import GraphClient.Client.Doc
import GraphClient.Client.Wrap
import GraphClient.Order

/-!
# Kotlin files

A generated Kotlin file as a list of declarations, and its text.
-/

namespace GraphClient.Kotlin

/-- The words that need ticks. -/
def keywords : List String :=
  ["as", "break", "class", "continue", "do", "else", "false", "for", "fun", "if", "in",
    "interface", "is", "null", "object", "package", "return", "super", "this", "throw", "true",
    "try", "typealias", "typeof", "val", "var", "when", "while"]

/-- The identifier of a name. -/
def identifier (name : String) : String :=
  if keywords.contains name then "`" ++ name ++ "`" else name

/-- An identifier without its ticks. -/
def unticked (text : String) : String :=
  let front := text.toList.dropWhile (· == '`')
  String.ofList (front.reverse.dropWhile (· == '`')).reverse

/-- The written form of a character in a string. A dollar sign would start a template. -/
def escapeChar (c : Char) : List Char :=
  match c with
  | '\\' => ['\\', '\\']
  | '"' => ['\\', '"']
  | '$' => ['\\', '$']
  | '\n' => ['\\', 'n']
  | '\r' => ['\\', 'r']
  | '\t' => ['\\', 't']
  | c => if Text.isControl c then Text.codeEscape Text.lowerHex c else [c]

/-- A string literal. -/
def stringLiteral (text : String) : String :=
  String.ofList ('"' :: text.toList.flatMap escapeChar ++ ['"'])

/-- A type of Kotlin. -/
inductive TypeExpr
  | named (name : String)
  | list (element : TypeExpr)
  | nullable (inner : TypeExpr)

namespace TypeExpr

/-- A type as it is written. -/
def text : TypeExpr → String
  | .named name => name
  | .list element => "List<" ++ element.text ++ ">"
  | .nullable inner => inner.text ++ "?"

/-- Whether a type has null. -/
def isNullable : TypeExpr → Bool
  | .nullable _ => true
  | _ => false

/-- The type of values of a reference. -/
def wrap (type : TypeRef) (inner : String) : TypeExpr := type.wrap .list .nullable (.named inner)

end TypeExpr

/-- A property of a class. -/
structure Property where
  doc : Doc := {}
  name : String
  wire : String
  overrides : Bool := false
  type : TypeExpr

/-- Whether a property is sent under another name. -/
def Property.isRenamed (property : Property) : Bool := unticked property.name != property.wire

/-- A field of an input, as its builder sees it. -/
structure BuilderField where
  name : String
  isRequired : Bool
  type : TypeExpr

/-- A declaration of a file. -/
inductive Item
  | alias (doc : Doc) (name target : String)
  | enumClass (doc : Doc) (name : String) (values : List (Doc × String))
  /-- A class with properties; `serialName` is the name of its object type. -/
  | dataClass (doc : Doc) (serialName : Option String) (name : String)
      (properties : List Property) (supertypes : List String)
  | inputClass (doc : Doc) (name : String) (properties : List Property)
      (fields : List BuilderField)
  | sealedInterface (doc : Doc) (name : String) (parents : List String)
      (properties : List Property)
  | bare (serialName : Option String) (keyword name : String) (parents : List String)
  /-- The document of an operation, and its request and decoder. -/
  | operation (name document root : String) (hasVariables : Bool)
  | documents (operations : List String)
  | fixed (lines : List String)

namespace Item

/-- The line of what is deprecated. -/
def deprecatedLines (doc : Doc) : List Layout :=
  match doc.deprecated with
  | some reason => [.line ("@Deprecated(" ++ stringLiteral reason ++ ")")]
  | none => []

/-- The comment of a description. -/
def comment (doc : Doc) : List Layout := Doc.starred { description := doc.description }

/-- A property without its default. -/
def propertyHead (property : Property) : String :=
  (if property.isRenamed then "@SerialName(\"" ++ property.wire ++ "\") " else "") ++
    (if property.overrides then "override " else "") ++
    "val " ++ property.name ++ ": " ++ property.type.text

/-- A property in the list of a class. Null is the default where it is allowed. -/
def parameterLines (property : Property) : List Layout :=
  comment property.doc ++ deprecatedLines property.doc ++
    [.line (propertyHead property ++ (if property.type.isNullable then " = null" else "") ++ ",")]

/-- A property of an interface. -/
def memberLines (property : Property) : List Layout :=
  comment property.doc ++ deprecatedLines property.doc ++ [.line (propertyHead property)]

/-- The list of supertypes. -/
def parentText (parents : List String) : String :=
  if parents.isEmpty then "" else " : " ++ String.intercalate ", " parents

/-- The line with the name of an object type. -/
def serialNameLines (serialName : Option String) : List Layout :=
  serialName.toList.map fun name => .line ("@SerialName(\"" ++ name ++ "\")")

/-- Properties between parentheses. -/
def propertyBlock (head last : String) (properties : List Property) : List Layout :=
  Layout.block (head ++ "(") (")" ++ last) (properties.flatMap parameterLines)

/-- The builder of an input. -/
def builderLines (name : String) (fields : List BuilderField) : List Layout :=
  let required := fields.filter BuilderField.isRequired
  let optional := fields.filter fun field => !field.isRequired
  .line ("/** Collects the optional fields of a value; " ++
      "required fields are constructor parameters. */") ::
    Layout.braces ("class Builder(" ++ String.intercalate ", " (required.map fun field =>
        "private val " ++ field.name ++ ": " ++ field.type.text) ++ ")")
      ((optional.map fun field =>
          .line ("private var " ++ field.name ++ ": " ++ field.type.text ++ " = null")) ++
        (optional.flatMap fun field =>
          [.gap, .line ("fun " ++ field.name ++ "(value: " ++ field.type.text ++
            "): Builder = apply \x7b this." ++ field.name ++ " = value \x7d")]) ++
        .gap :: Layout.block ("fun build(): " ++ name ++ " = " ++ name ++ "(") ")"
          (fields.map fun field => .line (field.name ++ " = " ++ field.name ++ ",")))

/-- The object of an operation. -/
def operationLines (name document root : String) (hasVariables : Bool) : List Layout :=
  let typeName := name ++ "Variables"
  let parameter := if hasVariables then typeName else typeName ++ " = " ++ typeName ++ "()"
  Layout.braces ("object " ++ name) (Layout.separated
    [[.line ("const val OPERATION_NAME: String = \"" ++ name ++ "\""),
        .line ("const val DOCUMENT: String = " ++ stringLiteral document)],
      [.line ("fun request(variables: " ++ parameter ++ "): GraphQLRequest<" ++ typeName ++ "> ="),
        .indented [.line "GraphQLRequest(OPERATION_NAME, DOCUMENT, variables)"]],
      [.line ("/** Decodes the `data` member of a `" ++ name ++ "` response. */"),
        .line ("fun decode(data: JsonElement): " ++ root ++ " = decodeShape(" ++ root ++
          ".serializer(), data)")]])

/-- The map of all operations. -/
def documentLines (operations : List String) : List Layout :=
  .line "/** Every operation of the schema, by name. */" ::
    Layout.braces "object GraphQLOperations"
      (Layout.block "val documents: Map<String, String> = mapOf(" ")"
        (operations.map fun name => .line ("\"" ++ name ++ "\" to " ++ name ++ ".DOCUMENT,")))

/-- The lines of a declaration. -/
def code : Item → List Layout
  | .alias doc name target => comment doc ++ [.line ("typealias " ++ name ++ " = " ++ target)]
  | .enumClass doc name values =>
    comment doc ++ .line "@Serializable" :: Layout.braces ("enum class " ++ name)
      (values.flatMap fun (valueDoc, value) =>
        comment valueDoc ++ deprecatedLines valueDoc ++ [.line (value ++ ",")])
  | .dataClass doc serialName name properties supertypes =>
    comment doc ++ .line "@Serializable" :: serialNameLines serialName ++
      propertyBlock ("data class " ++ name) (parentText supertypes) properties
  | .inputClass doc name properties fields =>
    comment doc ++ .line "@Serializable" ::
      propertyBlock ("data class " ++ name) " \x7b" properties ++
      [.indented (builderLines name fields), .line "\x7d"]
  | .sealedInterface doc name parents properties =>
    let head := "sealed interface " ++ name ++ parentText parents
    comment doc ++ .line "@Serializable" ::
      if properties.isEmpty then [.line head]
      else Layout.braces head (properties.flatMap memberLines)
  | .bare serialName keyword name parents =>
    .line "@Serializable" :: serialNameLines serialName ++
      [.line (keyword ++ " " ++ name ++ parentText parents)]
  | .operation name document root hasVariables => operationLines name document root hasVariables
  | .documents operations => documentLines operations
  | .fixed lines => lines.map .line

end Item

/-- The annotation of what can be sent. -/
def serializable : String := "kotlinx.serialization.Serializable"

/-- The annotation of names on the wire. -/
def serialName : String := "kotlinx.serialization.SerialName"

/-- The type of any value. -/
def jsonElement : String := "kotlinx.serialization.json.JsonElement"

/-- The first line of every file. -/
def header : String := "// " ++ generatedMark

/-- A file. -/
structure Module where
  imports : List String
  items : List Item

/-- The text of a file. -/
def Module.text (package : String) (file : Module) : String :=
  Layout.render "    "
    (.line header :: .line ("package " ++ package) :: .gap ::
      ((NameSet.ofList file.imports).map fun name => .line ("import " ++ name)) ++ [.gap]) ++
    Layout.render "    " (Layout.separated (file.items.map Item.code))

end GraphClient.Kotlin
