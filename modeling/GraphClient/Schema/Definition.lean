import GraphClient.Directive
import GraphClient.TypeRef
import GraphClient.Vocabulary

/-!
# Schema definitions
-/

namespace GraphClient

/-- The kinds of types. -/
inductive TypeKind
  | scalar
  | object
  | interface
  | union
  | enum
  | inputObject
deriving DecidableEq

namespace TypeKind

def text : TypeKind → String
  | .scalar => "scalar"
  | .object => "object"
  | .interface => "interface"
  | .union => "union"
  | .enum => "enum"
  | .inputObject => "input object"

def rank : TypeKind → Nat
  | .scalar => 0
  | .object => 1
  | .interface => 2
  | .union => 3
  | .enum => 4
  | .inputObject => 5

/-- Scalars come first, input objects last. -/
instance : Ord TypeKind where
  compare a b := compare a.rank b.rank

/-- Whether arguments, input fields and variables can have such a type. -/
def isInput : TypeKind → Bool
  | .scalar | .enum | .inputObject => true
  | _ => false

/-- Whether fields can have such a type. -/
def isOutput : TypeKind → Bool
  | .inputObject => false
  | _ => true

/-- Whether a field of such a type needs a selection set. -/
def isComposite : TypeKind → Bool
  | .object | .interface | .union => true
  | _ => false

/-- Whether values of such a type are of one of several object types. -/
def isAbstract : TypeKind → Bool
  | .interface | .union => true
  | _ => false

def place : TypeKind → DirectiveLocation
  | .scalar => .scalar
  | .object => .object
  | .interface => .interface
  | .union => .union
  | .enum => .enum
  | .inputObject => .inputObject

end TypeKind

/-- An argument or an input field. -/
structure InputValueDefinition where
  name : String
  description : Option String
  type : TypeRef
  defaultValue : Option Value
  directives : List DirectiveUse
  location : Location

/-- Whether a value has to be given: null is excluded and there is no default. -/
def InputValueDefinition.isRequired (input : InputValueDefinition) : Bool :=
  input.type.isNonNull && input.defaultValue.isNone

def InputValueDefinition.find? (inputs : List InputValueDefinition) (name : String) :
    Option InputValueDefinition :=
  List.find? (fun input => input.name == name) inputs

/-- A field of an object type or an interface. -/
structure FieldDefinition where
  name : String
  description : Option String
  arguments : List InputValueDefinition
  type : TypeRef
  directives : List DirectiveUse
  location : Location

def FieldDefinition.argument? (field : FieldDefinition) (name : String) :
    Option InputValueDefinition :=
  InputValueDefinition.find? field.arguments name

/-- A value of an enum. -/
structure EnumValueDefinition where
  name : String
  description : Option String
  directives : List DirectiveUse
  location : Location

/-- What a type consists of. -/
inductive TypeBody
  | scalar
  | object (implements : List NamedRef) (fields : List FieldDefinition)
  | interface (implements : List NamedRef) (fields : List FieldDefinition)
  | union (members : List NamedRef)
  | enum (values : List EnumValueDefinition)
  | inputObject (fields : List InputValueDefinition)

def TypeBody.kind : TypeBody → TypeKind
  | .scalar => .scalar
  | .object .. => .object
  | .interface .. => .interface
  | .union _ => .union
  | .enum _ => .enum
  | .inputObject _ => .inputObject

/-- **A named type**, or an extension of one. -/
structure TypeDefinition where
  name : String
  description : Option String
  directives : List DirectiveUse
  body : TypeBody
  location : Location

namespace TypeDefinition

def kind (type : TypeDefinition) : TypeKind := type.body.kind

def fields (type : TypeDefinition) : List FieldDefinition :=
  match type.body with
  | .object _ fields => fields
  | .interface _ fields => fields
  | _ => []

def field? (type : TypeDefinition) (name : String) : Option FieldDefinition :=
  type.fields.find? fun field => field.name == name

def implements (type : TypeDefinition) : List NamedRef :=
  match type.body with
  | .object implements _ => implements
  | .interface implements _ => implements
  | _ => []

def lists (type : TypeDefinition) (interface : String) : Bool :=
  type.implements.any fun entry => entry.name == interface

end TypeDefinition

/-- The definition of a directive. -/
structure DirectiveDefinition where
  name : String
  description : Option String
  arguments : List InputValueDefinition
  locations : List DirectiveLocation
  repeatable : Bool
  location : Location

/-- A schema block or an extension of one. -/
structure SchemaDefinition where
  description : Option String
  directives : List DirectiveUse
  roots : List (OperationKind × NamedRef)
  isExtension : Bool
  location : Location

end GraphClient
