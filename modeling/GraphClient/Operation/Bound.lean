import GraphClient.Operation.Selection
import GraphClient.Schema.Input

/-!
# Bound operations

Operations and fragments whose names are resolved: every field carries its type, and a spread carries
the selections of its fragment.
-/

namespace GraphClient

def typename : String := "__typename"

/-- A selected field with its type. -/
structure BoundField where
  label : Option String
  name : String
  type : TypeRef
  arguments : List Argument
  directives : List DirectiveUse
  location : Location

namespace BoundField

def responseKey (field : BoundField) : String := field.label.getD field.name

def isConditional (field : BoundField) : Bool := DirectiveUse.isConditional field.directives

/-- The field that tells the type of an object. -/
def typename (label : Option String) (directives : List DirectiveUse) (location : Location) :
    BoundField :=
  ⟨label, GraphClient.typename, (TypeRef.named "String").nonNull, [], directives, location⟩

end BoundField

/-- An inline fragment, or a spread when `fragment` names one. -/
structure FragmentUse where
  condition : Option String
  fragment : Option String
  directives : List DirectiveUse
  location : Location

def FragmentUse.isConditional (use : FragmentUse) : Bool :=
  DirectiveUse.isConditional use.directives

/-- A selection with its types. -/
inductive BoundSelection
  | field (head : BoundField) (selections : List BoundSelection)
  | fragment (use : FragmentUse) (selections : List BoundSelection)

namespace BoundSelection

def hasKey (key : String) : BoundSelection → Bool
  | .field head _ => head.responseKey == key
  | .fragment _ _ => false

mutual

/-- The number of fields on the longest way down. -/
def depth : BoundSelection → Nat
  | .field _ selections => depthOf selections + 1
  | .fragment _ selections => depthOf selections

def depthOf : List BoundSelection → Nat
  | [] => 0
  | selection :: rest => max (depth selection) (depthOf rest)

end

end BoundSelection

/-- A fragment with its types. -/
structure BoundFragment where
  name : String
  condition : String
  directives : List DirectiveUse
  selections : List BoundSelection
  uses : List VariableUse
  /-- The fragments spread from here, directly or through others. -/
  spreads : NameSet
  location : Location

mutual

/-- A field of a response. -/
structure ShapeField where
  key : String
  name : String
  /-- The type of the field, with null when every selection of the key can be left out. -/
  type : TypeRef
  /-- The shape of the values, for fields with selections. -/
  shape : Option ResultShape

/-- The fields that one object type has. -/
structure ShapeVariant where
  type : String
  fields : List ShapeField

/-- **The shape of a response.** For an interface or union there is one variant for each possible
object type, by name, and `fields` holds what all of them share. -/
structure ResultShape where
  type : String
  fields : List ShapeField
  variants : List ShapeVariant

end

def ResultShape.isPolymorphic (shape : ResultShape) : Bool := !shape.variants.isEmpty

mutual

def ShapeField.same : ShapeField → ShapeField → Bool
  | ⟨key, name, type, shape⟩, ⟨key₂, name₂, type₂, shape₂⟩ =>
    key == key₂ && name == name₂ && type == type₂ && ResultShape.sameOption shape shape₂

def ShapeField.sameList : List ShapeField → List ShapeField → Bool
  | [], [] => true
  | a :: as, b :: bs => ShapeField.same a b && ShapeField.sameList as bs
  | _, _ => false

def ShapeVariant.same : ShapeVariant → ShapeVariant → Bool
  | ⟨type, fields⟩, ⟨type₂, fields₂⟩ => type == type₂ && ShapeField.sameList fields fields₂

def ShapeVariant.sameList : List ShapeVariant → List ShapeVariant → Bool
  | [], [] => true
  | a :: as, b :: bs => ShapeVariant.same a b && ShapeVariant.sameList as bs
  | _, _ => false

def ResultShape.same : ResultShape → ResultShape → Bool
  | ⟨type, fields, variants⟩, ⟨type₂, fields₂, variants₂⟩ =>
    type == type₂ && ShapeField.sameList fields fields₂ && ShapeVariant.sameList variants variants₂

def ResultShape.sameOption : Option ResultShape → Option ResultShape → Bool
  | none, none => true
  | some a, some b => ResultShape.same a b
  | _, _ => false

end

/-- A variable with its type. -/
structure BoundVariable where
  name : String
  type : TypeRef
  defaultValue : Option Value
  location : Location

/-- **An operation whose names are resolved.** -/
structure BoundOperation where
  name : String
  kind : OperationKind
  root : String
  parameters : List BoundVariable
  directives : List DirectiveUse
  selections : List BoundSelection
  shape : ResultShape
  fragments : NameSet
  location : Location

end GraphClient
