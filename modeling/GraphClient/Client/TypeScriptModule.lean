import GraphClient.Client.Doc
import GraphClient.Client.Wrap
import GraphClient.Order

/-!
# TypeScript modules

A generated TypeScript file as a list of exported declarations, and its text.
-/

namespace GraphClient.TypeScript

/-- A type of TypeScript. -/
inductive TypeExpr
  | named (name : String)
  | literal (text : String)
  | array (element : TypeExpr)
  | orNull (inner : TypeExpr)

namespace TypeExpr

/-- The written form. Only a name without blanks can stand in front of brackets. -/
def text : TypeExpr → String
  | .named name => name
  | .literal text => "\"" ++ text ++ "\""
  | .array element =>
    let inner := element.text
    if inner.toList.contains ' ' then "Array<" ++ inner ++ ">" else inner ++ "[]"
  | .orNull inner => inner.text ++ " | null"

/-- The type with the lists and nulls of a reference around `inner`. -/
def wrap (type : TypeRef) (inner : String) : TypeExpr := type.wrap .array .orNull (.named inner)

end TypeExpr

/-- A function: a name, or what another function makes of a function. -/
inductive Call
  | name (function : String)
  | apply (function : String) (argument : Call)

namespace Call

/-- A call as it is written. -/
def text : Call → String
  | .name function => function
  | .apply function argument => function ++ "(" ++ argument.text ++ ")"

/-- The functions that take others. -/
def applied : Call → List String
  | .name _ => []
  | .apply function argument => function :: argument.applied

end Call

/-- A member of an interface. -/
structure Member where
  doc : Doc := {}
  name : String
  isOptional : Bool := false
  type : TypeExpr

/-- A member as it is written. -/
def Member.text (member : Member) : String :=
  member.name ++ (if member.isOptional then "?" else "") ++ ": " ++ member.type.text

/-- An entry of an encoded object: the value found at `access` goes through the encoder, if there is
one. -/
structure EncodedEntry where
  key : String
  access : String
  encoder : Option Call
  isOptional : Bool

/-- An entry as it is written. -/
def EncodedEntry.text (entry : EncodedEntry) : String :=
  match entry.encoder with
  | none => entry.access
  | some encoder =>
    let encoded := encoder.text ++ "(" ++ entry.access ++ ")"
    if entry.isOptional then entry.access ++ " === undefined ? undefined : " ++ encoded else encoded

/-- What an entry is decoded from. -/
inductive DecodedValue
  | tag (type : String)
  | field (decoder : Call)

/-- A declaration of a file. -/
inductive Item
  | alias (doc : Doc) (name target : String)
  | interface (doc : Doc) (name : String) (members : List Member)
  | constant (doc : Doc) (name annotation value : String)
  | builder (input : String) (required optional : List Member)
  | inputEncoder (input : String) (entries : List EncodedEntry)
  | objectDecoder (type : String) (entries : List (String × DecodedValue))
  | unionDecoder (type : String) (variants : List (String × String))
  | request (name operation : String) (entries : List EncodedEntry)
  | responseDecoder (operation root : String)

namespace Item

/-- The name that a declaration exports. -/
def name : Item → String
  | .alias _ name _ => name
  | .interface _ name _ => name
  | .constant _ name _ _ => name
  | .builder input _ _ => input ++ "Builder"
  | .inputEncoder input _ => "encode" ++ input
  | .objectDecoder type _ => "decode" ++ type
  | .unionDecoder type _ => "decode" ++ type
  | .request name _ _ => name
  | .responseDecoder operation _ => "decode" ++ operation

open Layout (braces block)

/-- The lines of members. -/
def memberLines (members : List Member) : List Layout :=
  members.flatMap fun member => member.doc.starred ++ [.line (member.text ++ ";")]

/-- Entries between braces. -/
def entryBlock (head last : String) (entries : List String) : List Layout :=
  block (head ++ "\x7b") ("\x7d" ++ last) (entries.map fun entry => .line (entry ++ ","))

/-- An object literal of names. -/
def fieldsLiteral (names : List String) : String :=
  if names.isEmpty then "\x7b\x7d" else "\x7b " ++ String.intercalate ", " names ++ " \x7d"

/-- The builder of an input. -/
def builderLines (input : String) (required optional : List Member) : List Layout :=
  braces ("export class " ++ input ++ "Builder")
    (Layout.separated (
      [[.line ("private readonly fields: Partial<" ++ input ++ ">;")],
        braces ("constructor(" ++ String.intercalate ", " (required.map fun member =>
            member.name ++ ": " ++ member.type.text) ++ ")")
          [.line ("this.fields = " ++ fieldsLiteral (required.map Member.name) ++ ";")]] ++
      (optional.map fun member =>
        braces (member.name ++ "(value: " ++ member.type.text ++ "): this")
          [.line ("this.fields." ++ member.name ++ " = value;"), .line "return this;"]) ++
      [braces ("build(): " ++ input)
        [.line ("return \x7b ...this.fields \x7d as " ++ input ++ ";")]]))

/-- Entries without those that are not given. -/
def compactBlock (head last : String) (entries : List EncodedEntry) : List Layout :=
  entryBlock (head ++ "compact(") (")" ++ last)
    (entries.map fun entry => entry.key ++ ": " ++ entry.text)

/-- An entry of a decoded object. -/
def decodedText (key : String) : DecodedValue → String
  | .tag type => key ++ ": \"" ++ type ++ "\""
  | .field decoder => key ++ ": field(object, \"" ++ key ++ "\", path, " ++ decoder.text ++ ")"

/-- The head of a decoder. -/
def decoderHead (type : String) : String :=
  "export function decode" ++ type ++ "(value: unknown, path: string): " ++ type

/-- The cases of a decoder of several types. -/
def variantCases (variants : List (String × String)) : List Layout :=
  (variants.flatMap fun (type, plan) =>
    [.line ("case \"" ++ type ++ "\":"),
      .indented [.line ("return decode" ++ plan ++ "(object, path);")]]) ++
  [.line "default:",
    .indented [.line ("throw new ShapeMismatchError(`$\x7bpath\x7d.__typename`, \"one of " ++
      String.intercalate ", " (variants.map Prod.fst) ++ "\", typename);")]]

/-- The lines of a declaration. -/
def code : Item → List Layout
  | .alias doc name target =>
    doc.starred ++ [.line ("export type " ++ name ++ " = " ++ target ++ ";")]
  | .interface doc name members =>
    doc.starred ++ braces ("export interface " ++ name) (memberLines members)
  | .constant doc name annotation value =>
    doc.starred ++ [.line ("export const " ++ name ++ annotation ++ " = " ++ value ++ ";")]
  | .builder input required optional => builderLines input required optional
  | .inputEncoder input entries =>
    braces ("export function encode" ++ input ++ "(value: " ++ input ++ "): JsonValue")
      (compactBlock "return " ";" entries)
  | .objectDecoder type entries =>
    braces (decoderHead type)
      (.line "const object = expectObject(value, path);" ::
        entryBlock "return " ";" (entries.map fun (key, value) => decodedText key value))
  | .unionDecoder type variants =>
    braces (decoderHead type)
      (.line "const object = expectObject(value, path);" ::
        .line "const typename = typenameOf(object, path);" ::
        braces "switch (typename)" (variantCases variants))
  | .request name operation entries =>
    let parameters := if entries.isEmpty then "" else "variables: " ++ operation ++ "Variables"
    braces ("export function " ++ name ++ "(" ++ parameters ++ "): GraphQLRequest")
      (block "return \x7b" "\x7d;"
        ([.line ("operationName: \"" ++ operation ++ "\","),
            .line ("query: " ++ operation ++ "Document,")] ++
          if entries.isEmpty then [.line "variables: \x7b\x7d,"]
          else compactBlock "variables: " "," entries))
  | .responseDecoder operation root =>
    braces ("export function decode" ++ operation ++ "(data: unknown): " ++ root)
      [.line ("return decode" ++ root ++ "(data, \"data\");")]

end Item

/-- A name of another file. -/
structure Import where
  file : String
  name : String
deriving DecidableEq

/-- The first line of every file. -/
def header : String := "// " ++ generatedMark

/-- A generated file. The declarations of one section stand together. -/
structure Module where
  imports : List Import
  sections : List (List Item)

namespace Module

/-- The names that a file exports. -/
def exports (file : Module) : List String := file.sections.flatten.map Item.name

/-- One line for each file that names come from, files and names in order. -/
def importLines (imports : List Import) : List Layout :=
  (NameSet.ofList (imports.map Import.file)).map fun file =>
    let names := NameSet.ofList ((imports.filter fun entry => entry.file == file).map Import.name)
    .line ("import \x7b " ++ String.intercalate ", " names ++ " \x7d from \"" ++ file ++ "\";")

/-- The text of a file. -/
def text (file : Module) : String :=
  Layout.render "  " (.line header :: .gap :: importLines file.imports ++ [.gap]) ++
    Layout.render "  " (Layout.separated (file.sections.map fun items => items.flatMap Item.code))

end Module

end GraphClient.TypeScript
