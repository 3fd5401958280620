import GraphClient.Operation.Bound

/-!
# Result shapes

The shape of a response follows from the bound selections: fragments are flattened into the object
types that they apply to, and fields under one key are merged.
-/

namespace GraphClient

/-- A field with the selections below it, on the way to its group. -/
structure Collected where
  /-- Whether the field or a fragment around it can be left out. -/
  isConditional : Bool
  field : BoundField
  selections : List BoundSelection

namespace Registry

variable (registry : Registry)

/-- Whether a fragment with the given condition applies to objects of type `object`. -/
def applies (condition : Option String) (object : String) : Bool :=
  match condition with
  | none => true
  | some name => name == object || registry.isPossibleType name object

mutual

def collectOne (object : String) (isConditional : Bool) : BoundSelection → List Collected
  | .field field selections => [⟨isConditional || field.isConditional, field, selections⟩]
  | .fragment use selections =>
    if registry.applies use.condition object then
      collectFrom object (isConditional || use.isConditional) selections
    else []

def collectFrom (object : String) (isConditional : Bool) : List BoundSelection → List Collected
  | [] => []
  | selection :: rest =>
    collectOne object isConditional selection ++ collectFrom object isConditional rest

end

/-- **The fields that an object of type `object` answers**, in the order they are written. -/
def collect (object : String) (selections : List BoundSelection) : List Collected :=
  registry.collectFrom object false selections

end Registry

/-- The fields with one key. -/
structure FieldGroup where
  first : Collected
  others : List Collected

namespace FieldGroup

def key (group : FieldGroup) : String := group.first.field.responseKey

def entries (group : FieldGroup) : List Collected := group.first :: group.others

def isConditional (group : FieldGroup) : Bool := group.entries.all Collected.isConditional

def type (group : FieldGroup) : TypeRef :=
  if group.isConditional then group.first.field.type.nullable else group.first.field.type

def selections (group : FieldGroup) : List BoundSelection :=
  group.entries.flatMap Collected.selections

/-- Puts a field in front of the groups of those behind it, and in front of the group of its key. -/
def put (entry : Collected) (groups : List FieldGroup) : List FieldGroup :=
  let isSame := fun group => key group == entry.field.responseKey
  ⟨entry, ((groups.find? isSame).map entries).getD []⟩ :: groups.filter fun group => !isSame group

def ofList (fields : List Collected) : List FieldGroup := fields.foldr put []

end FieldGroup

namespace Registry

variable (registry : Registry)

/-- The object types that the shape of a selection set on `type` tells apart; none for an object. -/
def variantTypes (type : String) : List String :=
  match registry.kind? type with
  | some kind => if kind.isAbstract then registry.possibleTypes type else []
  | none => []

/-- The fields that all variants have in common, as the first one lists them. -/
def sharedFields : List ShapeVariant → List ShapeField
  | [] => []
  | first :: rest =>
    first.fields.filter fun field => rest.all fun variant => variant.fields.any field.same

/-- The shape of a selection set of depth at most `fuel`. -/
def shapeWithin : (fuel : Nat) → (type : String) → List BoundSelection → ResultShape
  | 0, type, _ => ⟨type, [], []⟩
  | fuel + 1, type, selections =>
    let fieldsOf := fun object =>
      (FieldGroup.ofList (registry.collect object selections)).map fun group =>
        { key := group.key
          name := group.first.field.name
          type := group.type
          shape :=
            if group.selections.isEmpty then none
            else some (shapeWithin fuel group.first.field.type.name group.selections) : ShapeField }
    match registry.variantTypes type with
    | [] => ⟨type, fieldsOf type, []⟩
    | objects =>
      let variants := objects.map fun object => ⟨object, fieldsOf object⟩
      ⟨type, sharedFields variants, variants⟩

/-- **The shape of a selection set.** -/
def resultShape (type : String) (selections : List BoundSelection) : ResultShape :=
  registry.shapeWithin (BoundSelection.depthOf selections + 1) type selections

end Registry

/-- Two fields of one key that differ. -/
structure Conflict where
  first : BoundField
  other : BoundField

def Conflict.diagnostic (conflict : Conflict) : Diagnostic :=
  .error .fieldConflict "conflicting fields" conflict.other.location
    (ticked conflict.first.responseKey ++ " selects " ++ ticked conflict.first.name ++ " and " ++
      ticked conflict.other.name ++ " with different arguments or fields")

def sameArguments (a b : List Argument) : Bool :=
  let sorted := fun (arguments : List Argument) =>
    sortBy (fun x y => compare x.1 y.1) (arguments.map fun argument => (argument.name, argument.value))
  Value.sameFields (sorted a) (sorted b)

def canMerge (a b : BoundField) : Bool := a.name == b.name && sameArguments a.arguments b.arguments

def conflictsAmong (fields : List Collected) : List Conflict :=
  fields.filterMap fun entry =>
    match fields.find? fun first => first.field.responseKey == entry.field.responseKey with
    | none => none
    | some first =>
      if canMerge first.field entry.field then none else some ⟨first.field, entry.field⟩

namespace Registry

variable (registry : Registry)

/-- The conflicts in a selection set of depth at most `fuel`, in the order they are met. -/
def conflictsWithin : (fuel : Nat) → (type : String) → List BoundSelection → List Conflict
  | 0, _, _ => []
  | fuel + 1, type, selections =>
    let conflictsOf := fun object =>
      let entries := registry.collect object selections
      conflictsAmong entries ++
        (FieldGroup.ofList entries).flatMap fun group =>
          conflictsWithin fuel group.first.field.type.name group.selections
    match registry.variantTypes type with
    | [] => conflictsOf type
    | objects => objects.flatMap conflictsOf

/-- **The reports of fields that cannot be merged**, one for each place. -/
def conflicts (type : String) (selections : List BoundSelection) : Diagnostics :=
  let met := registry.conflictsWithin (BoundSelection.depthOf selections + 1) type selections
  (met.eraseDupsBy fun a b => a.other.location == b.other.location).map Conflict.diagnostic

end Registry

end GraphClient
