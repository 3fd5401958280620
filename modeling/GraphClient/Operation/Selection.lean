import GraphClient.Directive
import GraphClient.TypeRef
import GraphClient.Vocabulary

/-!
# Operations and fragments

What a document asks for, before its names are resolved.
-/

namespace GraphClient

/-- A selected field without its selections. -/
structure FieldHead where
  label : Option String
  name : String
  arguments : List Argument
  directives : List DirectiveUse
  location : Location

def FieldHead.responseKey (head : FieldHead) : String := head.label.getD head.name

/-- The use of a named fragment. -/
structure Spread where
  name : String
  directives : List DirectiveUse
  location : Location

/-- A selection of an operation. -/
inductive Selection
  | field (head : FieldHead) (selections : List Selection)
  | spread (target : Spread)
  | inline (condition : Option NamedRef) (directives : List DirectiveUse)
      (selections : List Selection) (location : Location)

namespace Selection

def location : Selection → Location
  | .field head _ => head.location
  | .spread target => target.location
  | .inline _ _ _ location => location

mutual

def spreads : Selection → List Spread
  | .field _ selections => spreadsIn selections
  | .spread target => [target]
  | .inline _ _ selections _ => spreadsIn selections

def spreadsIn : List Selection → List Spread
  | [] => []
  | selection :: rest => spreads selection ++ spreadsIn rest

end

end Selection

/-- A variable of an operation. -/
structure VariableDefinition where
  name : String
  type : TypeRef
  defaultValue : Option Value
  directives : List DirectiveUse
  location : Location

/-- A query, mutation or subscription. -/
structure OperationDefinition where
  kind : OperationKind
  name : Option String
  parameters : List VariableDefinition
  directives : List DirectiveUse
  selections : List Selection
  location : Location

/-- A named fragment. -/
structure FragmentDefinition where
  name : String
  condition : NamedRef
  directives : List DirectiveUse
  selections : List Selection
  location : Location

end GraphClient
