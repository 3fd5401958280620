import GraphClient.Schema.Registry
import GraphClient.Text.Lines

/-!
# Printing schemas

The declared part of a registry as a document: directives, the schema block and types, each by name, so
that equal registries print alike.
-/

namespace GraphClient

namespace Printer

def indent (depth : Nat) : String := String.join (List.replicate depth "  ")

/-- Texts with `first` in front of the first and `next` in front of the others. -/
def chain (first next : String) : List String → String
  | [] => ""
  | text :: rest => first ++ text ++ String.join (rest.map (next ++ ·))

def parenthesized (texts : List String) : String :=
  if texts.isEmpty then "" else "(" ++ String.intercalate ", " texts ++ ")"

def arguments (arguments : List Argument) : String := parenthesized (arguments.map Argument.text)

def directives (uses : List DirectiveUse) : String :=
  String.join (uses.map fun use => " @" ++ use.name ++ arguments use.arguments)

def escapeTriple : List Char → List Char
  | '"' :: '"' :: '"' :: rest => '\\' :: '"' :: '"' :: '"' :: escapeTriple rest
  | c :: rest => c :: escapeTriple rest
  | [] => []

def descriptionLine (depth : Nat) (line : String) : String :=
  (if line = "" then "" else indent depth ++ String.ofList (escapeTriple line.toList)) ++ "\n"

/-- A description and the start of the line behind it. A text of several lines is a block string. -/
def description (depth : Nat) : Option String → String
  | none => ""
  | some text =>
    (if text.toList.contains '\n' then
        "\"\"\"\n" ++ String.join ((Text.textLines text).map (descriptionLine depth)) ++
          indent depth ++ "\"\"\""
      else Text.quote text) ++ "\n" ++ indent depth

def defaultValue : Option Value → String
  | none => ""
  | some value => " = " ++ value.text

def inputValue (input : InputValueDefinition) : String :=
  input.name ++ ": " ++ input.type.text ++ defaultValue input.defaultValue ++
    directives input.directives

def argumentDefinitions (inputs : List InputValueDefinition) : String :=
  parenthesized (inputs.map inputValue)

def field (field : FieldDefinition) : String :=
  description 1 field.description ++ field.name ++ argumentDefinitions field.arguments ++ ": " ++
    field.type.text ++ directives field.directives

def enumValue (value : EnumValueDefinition) : String :=
  description 1 value.description ++ value.name ++ directives value.directives

def inputField (input : InputValueDefinition) : String :=
  description 1 input.description ++ inputValue input

def block (entries : List String) : String :=
  " \x7b\n" ++ String.join (entries.map fun entry => indent 1 ++ entry ++ "\n") ++ "\x7d"

def type (type : TypeDefinition) : String :=
  description 0 type.description ++
  match type.body with
  | .scalar => "scalar " ++ type.name ++ directives type.directives
  | .object implements fields =>
    "type " ++ type.name ++ chain " implements " " & " (implements.map NamedRef.name) ++
      directives type.directives ++ block (fields.map field)
  | .interface implements fields =>
    "interface " ++ type.name ++ chain " implements " " & " (implements.map NamedRef.name) ++
      directives type.directives ++ block (fields.map field)
  | .union members =>
    "union " ++ type.name ++ directives type.directives ++
      chain " = " " | " (members.map NamedRef.name)
  | .enum values =>
    "enum " ++ type.name ++ directives type.directives ++ block (values.map enumValue)
  | .inputObject fields =>
    "input " ++ type.name ++ directives type.directives ++ block (fields.map inputField)

def directiveDefinition (directive : DirectiveDefinition) : String :=
  description 0 directive.description ++ "directive @" ++ directive.name ++
    argumentDefinitions directive.arguments ++ (if directive.repeatable then " repeatable" else "") ++
    chain " on " " | " (directive.locations.map DirectiveLocation.text)

def schemaBlock (registry : Registry) : String :=
  "schema" ++ directives registry.schemaDirectives ++
    block (registry.roots.map fun (kind, root) => kind.text ++ ": " ++ root.name)

def sections (texts : List String) : String := String.intercalate "\n\n" texts ++ "\n"

end Printer

/-- **The schema of a registry as a text.** -/
def Registry.print (registry : Registry) : String :=
  Printer.sections
    (registry.userDirectives.map Printer.directiveDefinition ++
      (if registry.hasSchema then [Printer.schemaBlock registry] else []) ++
      registry.userTypes.map Printer.type)

end GraphClient
