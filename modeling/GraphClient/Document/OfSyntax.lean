import GraphClient.Document
import GraphClient.Syntax.Document

/-!
# Documents from syntax trees

Every node of a tree becomes a node of a document: names lose their spans and spans become locations
in the source of the given number.
-/

namespace GraphClient

section Nodes

variable (source : Nat)

/-- The reference of a written type. -/
def TypeRef.ofSyntax : Syntax.TypeExpr → TypeRef
  | .named name => .named name.text
  | .list inner _ => .list (ofSyntax inner)
  | .nonNull inner _ => .nonNull (ofSyntax inner)

mutual

def Value.ofSyntax : Syntax.Value → Value
  | .variable name => .variable name.text
  | .int value _ => .int value
  | .float value _ => .float value
  | .string value _ => .string value
  | .boolean value _ => .boolean value
  | .null _ => .null
  | .enum name => .enum name.text
  | .list items _ => .list (Value.itemsOfSyntax items)
  | .object fields _ => .object (Value.fieldsOfSyntax fields)

def Value.itemsOfSyntax : List Syntax.Value → List Value
  | [] => []
  | item :: items => .ofSyntax item :: Value.itemsOfSyntax items

def Value.fieldsOfSyntax : List (Syntax.Name × Syntax.Value) → List (String × Value)
  | [] => []
  | (name, value) :: fields => (name.text, .ofSyntax value) :: Value.fieldsOfSyntax fields

end

def NamedRef.ofSyntax (name : Syntax.Name) : NamedRef := ⟨name.text, ⟨source, name.span⟩⟩

def Argument.ofSyntax (argument : Syntax.Argument) : Argument :=
  ⟨argument.name.text, .ofSyntax argument.value, ⟨source, argument.span⟩⟩

def DirectiveUse.ofSyntax (use : Syntax.Directive) : DirectiveUse :=
  ⟨use.name.text, use.arguments.map (.ofSyntax source), ⟨source, use.span⟩⟩

def InputValueDefinition.ofSyntax (input : Syntax.InputValueDefinition) : InputValueDefinition where
  name := input.name.text
  description := input.description.map Syntax.Description.text
  type := .ofSyntax input.type
  defaultValue := input.defaultValue.map .ofSyntax
  directives := input.directives.map (.ofSyntax source)
  location := ⟨source, input.span⟩

def FieldDefinition.ofSyntax (field : Syntax.FieldDefinition) : FieldDefinition where
  name := field.name.text
  description := field.description.map Syntax.Description.text
  arguments := field.arguments.map (.ofSyntax source)
  type := .ofSyntax field.type
  directives := field.directives.map (.ofSyntax source)
  location := ⟨source, field.span⟩

def EnumValueDefinition.ofSyntax (value : Syntax.EnumValueDefinition) : EnumValueDefinition where
  name := value.name.text
  description := value.description.map Syntax.Description.text
  directives := value.directives.map (.ofSyntax source)
  location := ⟨source, value.span⟩

def TypeBody.ofSyntax : Syntax.TypeBody → TypeBody
  | .scalar => .scalar
  | .object implements fields =>
    .object (implements.map (.ofSyntax source)) (fields.map (.ofSyntax source))
  | .interface implements fields =>
    .interface (implements.map (.ofSyntax source))
      (fields.map (.ofSyntax source))
  | .union members => .union (members.map (.ofSyntax source))
  | .enum values => .enum (values.map (.ofSyntax source))
  | .input fields => .inputObject (fields.map (.ofSyntax source))

def TypeDefinition.ofSyntax (type : Syntax.TypeDefinition) : TypeDefinition where
  name := type.name.text
  description := type.description.map Syntax.Description.text
  directives := type.directives.map (.ofSyntax source)
  body := .ofSyntax source type.body
  location := ⟨source, type.span⟩

def SchemaDefinition.ofSyntax (isExtension : Bool) (schema : Syntax.SchemaDefinition) :
    SchemaDefinition where
  description := schema.description.map Syntax.Description.text
  directives := schema.directives.map (.ofSyntax source)
  roots := schema.roots.map fun root => (root.operation, .ofSyntax source root.type)
  isExtension := isExtension
  location := ⟨source, schema.span⟩

def DirectiveDefinition.ofSyntax (directive : Syntax.DirectiveDefinition) :
    DirectiveDefinition where
  name := directive.name.text
  description := directive.description.map Syntax.Description.text
  arguments := directive.arguments.map (.ofSyntax source)
  locations := directive.locations.map Prod.fst
  repeatable := directive.repeatable
  location := ⟨source, directive.span⟩

def FieldHead.ofSyntax (head : Syntax.FieldHead) : FieldHead where
  label := head.label.map Syntax.Name.text
  name := head.name.text
  arguments := head.arguments.map (.ofSyntax source)
  directives := head.directives.map (.ofSyntax source)
  location := ⟨source, head.span⟩

mutual

/-- A selection, with the places of its source. -/
def Selection.ofSyntax : Syntax.Selection → Selection
  | .field head _ selections =>
    .field (.ofSyntax source head) (Selection.listOfSyntax selections)
  | .spread name directives span =>
    .spread ⟨name.text, directives.map (.ofSyntax source), ⟨source, span⟩⟩
  | .inline condition directives _ selections span =>
    .inline (condition.map (.ofSyntax source))
      (directives.map (.ofSyntax source)) (Selection.listOfSyntax selections)
      ⟨source, span⟩

def Selection.listOfSyntax : List Syntax.Selection → List Selection
  | [] => []
  | selection :: rest => .ofSyntax selection :: Selection.listOfSyntax rest

end

def VariableDefinition.ofSyntax (variableNode : Syntax.VariableDefinition) :
    VariableDefinition where
  name := variableNode.name.text
  type := .ofSyntax variableNode.type
  defaultValue := variableNode.defaultValue.map .ofSyntax
  directives := variableNode.directives.map (.ofSyntax source)
  location := ⟨source, variableNode.span⟩

def OperationDefinition.ofSyntax (operation : Syntax.OperationDefinition) :
    OperationDefinition where
  kind := operation.operation
  name := operation.name.map Syntax.Name.text
  parameters := operation.parameters.map (.ofSyntax source)
  directives := operation.directives.map (.ofSyntax source)
  selections := Selection.listOfSyntax source operation.body.selections
  location := ⟨source, operation.span⟩

def FragmentDefinition.ofSyntax (fragment : Syntax.FragmentDefinition) : FragmentDefinition where
  name := fragment.name.text
  condition := .ofSyntax source fragment.condition
  directives := fragment.directives.map (.ofSyntax source)
  selections := Selection.listOfSyntax source fragment.body.selections
  location := ⟨source, fragment.span⟩

end Nodes

/-- **The definitions of a tree**, sorted by what they define. -/
def Document.ofSyntax (source : Nat) (tree : Syntax.Document) : Document where
  source := source
  schemas := tree.definitions.filterMap fun
    | .schema schema => some (.ofSyntax source false schema)
    | .schemaExtension schema => some (.ofSyntax source true schema)
    | _ => none
  types := tree.definitions.filterMap fun
    | .type type => some (.ofSyntax source type)
    | _ => none
  extensions := tree.definitions.filterMap fun
    | .typeExtension type => some (.ofSyntax source type)
    | _ => none
  directives := tree.definitions.filterMap fun
    | .directive directive => some (.ofSyntax source directive)
    | _ => none
  operations := tree.definitions.filterMap fun
    | .operation operation => some (.ofSyntax source operation)
    | _ => none
  fragments := tree.definitions.filterMap fun
    | .fragment fragment => some (.ofSyntax source fragment)
    | _ => none

/-- Reads a source, and reports its syntax errors. -/
def Document.read (source : Source) : Document × Diagnostics :=
  let (tree, diagnostics) := Syntax.parse source.id source.text
  (.ofSyntax source.id tree, diagnostics)

/-- The documents of all sources, with the problems of all texts. -/
def Document.readAll (sources : List Source) : List Document × Diagnostics :=
  let readings := sources.map Document.read
  (readings.map Prod.fst, readings.flatMap Prod.snd)

end GraphClient
