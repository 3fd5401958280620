import GraphClient.Decimal.Binary64
import GraphClient.Position
import GraphClient.Vocabulary

/-!
# Syntax trees

The tree of a document as it was written: every node keeps its span, and an extension has the shape
of the definition that it extends.
-/

namespace GraphClient.Syntax

/-- A name with its place. -/
structure Name where
  text : String
  span : Span
deriving DecidableEq

/-- A description: the text that its string literal denotes. -/
structure Description where
  text : String
  span : Span
deriving DecidableEq

/-- A literal or a variable, as it is written. -/
inductive Value
  | variable (name : Name)
  | int (value : Int) (span : Span)
  | float (value : Binary64) (span : Span)
  | string (value : String) (span : Span)
  | boolean (value : Bool) (span : Span)
  | null (span : Span)
  | enum (name : Name)
  | list (items : List Value) (span : Span)
  | object (fields : List (Name × Value)) (span : Span)

/-- Where a value stands. -/
def Value.span : Value → Span
  | .variable name => name.span
  | .int _ span => span
  | .float _ span => span
  | .string _ span => span
  | .boolean _ span => span
  | .null span => span
  | .enum name => name.span
  | .list _ span => span
  | .object _ span => span

/-- A type, as it is written. -/
inductive TypeExpr
  | named (name : Name)
  | list (inner : TypeExpr) (span : Span)
  | nonNull (inner : TypeExpr) (span : Span)

namespace TypeExpr

/-- Where a type stands. -/
def span : TypeExpr → Span
  | .named name => name.span
  | .list _ span => span
  | .nonNull _ span => span

/-- The name inside all lists. -/
def base : TypeExpr → Name
  | .named name => name
  | .list inner _ => inner.base
  | .nonNull inner _ => inner.base

end TypeExpr

/-- An argument of a field or a directive. -/
structure Argument where
  name : Name
  value : Value
  span : Span

/-- A directive behind an at sign. -/
structure Directive where
  name : Name
  arguments : List Argument
  span : Span

/-- An argument or an input field. -/
structure InputValueDefinition where
  description : Option Description
  name : Name
  type : TypeExpr
  defaultValue : Option Value
  directives : List Directive
  span : Span

/-- A field of an object type or an interface. -/
structure FieldDefinition where
  description : Option Description
  name : Name
  arguments : List InputValueDefinition
  type : TypeExpr
  directives : List Directive
  span : Span

/-- A value of an enum. -/
structure EnumValueDefinition where
  description : Option Description
  name : Name
  directives : List Directive
  span : Span

/-- What follows the name of a type, by kind. -/
inductive TypeBody
  | scalar
  | object (implements : List Name) (fields : List FieldDefinition)
  | interface (implements : List Name) (fields : List FieldDefinition)
  | union (members : List Name)
  | enum (values : List EnumValueDefinition)
  | input (fields : List InputValueDefinition)

/-- A type or an extension of one. -/
structure TypeDefinition where
  description : Option Description
  name : Name
  directives : List Directive
  body : TypeBody
  span : Span

/-- The root of one operation kind. -/
structure RootDefinition where
  operation : OperationKind
  type : Name
  span : Span

/-- A schema block or an extension of one. -/
structure SchemaDefinition where
  description : Option Description
  directives : List Directive
  roots : List RootDefinition
  span : Span

/-- The definition of a directive. -/
structure DirectiveDefinition where
  description : Option Description
  name : Name
  arguments : List InputValueDefinition
  repeatable : Bool
  locations : List (DirectiveLocation × Span)
  span : Span

/-- A selected field without its selections. -/
structure FieldHead where
  label : Option Name
  name : Name
  arguments : List Argument
  directives : List Directive
  span : Span

/-- A selection. A field has a selection set when `braces` tells where it stands. -/
inductive Selection
  | field (head : FieldHead) (braces : Option Span) (selections : List Selection)
  | spread (name : Name) (directives : List Directive) (span : Span)
  | inline (condition : Option Name) (directives : List Directive) (braces : Span)
      (selections : List Selection) (span : Span)

/-- Selections between braces. -/
structure SelectionSet where
  selections : List Selection
  span : Span

/-- A variable of an operation. -/
structure VariableDefinition where
  name : Name
  type : TypeExpr
  defaultValue : Option Value
  directives : List Directive
  span : Span

/-- A query, mutation or subscription. -/
structure OperationDefinition where
  operation : OperationKind
  name : Option Name
  parameters : List VariableDefinition
  directives : List Directive
  body : SelectionSet
  span : Span

/-- A named fragment. -/
structure FragmentDefinition where
  name : Name
  condition : Name
  directives : List Directive
  body : SelectionSet
  span : Span

/-- What a document consists of. -/
inductive Definition
  | schema (definition : SchemaDefinition)
  | schemaExtension (definition : SchemaDefinition)
  | type (definition : TypeDefinition)
  | typeExtension (definition : TypeDefinition)
  | directive (definition : DirectiveDefinition)
  | operation (definition : OperationDefinition)
  | fragment (definition : FragmentDefinition)

/-- Whether it is an operation or a fragment. -/
def Definition.isExecutable : Definition → Bool
  | .operation _ => true
  | .fragment _ => true
  | _ => false

/-- A parsed text. -/
structure Document where
  definitions : List Definition
  span : Span

/-- Whether a document has no definitions of a schema. -/
def Document.isExecutable (document : Document) : Bool :=
  document.definitions.all Definition.isExecutable

end GraphClient.Syntax
