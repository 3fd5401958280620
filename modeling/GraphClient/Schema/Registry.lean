import GraphClient.Schema.Problem

/-!
# The registry

One registry holds every type, directive and root of a run. It starts with the built-in scalars and
directives and only grows; once frozen it never changes again.
-/

namespace GraphClient

/-- All that the documents of a run define. -/
structure Registry where
  types : NameMap TypeDefinition
  directives : NameMap DirectiveDefinition
  /-- The declared roots, queries first. -/
  roots : List (OperationKind × NamedRef)
  schemaDirectives : List DirectiveUse
  schemaLocation : Option Location
  isFrozen : Bool

/-- The names of the built-in scalars. -/
def builtinScalars : List String := ["Boolean", "Float", "ID", "Int", "String"]

/-- A scalar that no document declares. -/
def TypeDefinition.builtinScalar (name : String) : TypeDefinition :=
  ⟨name, none, [], .scalar, .builtin⟩

/-- An argument of a built-in directive. -/
def InputValueDefinition.builtin (name : String) (type : TypeRef) (defaultValue : Option Value) :
    InputValueDefinition :=
  ⟨name, none, type, defaultValue, [], .builtin⟩

/-- A directive that keeps or drops a selection. -/
def DirectiveDefinition.condition (name : String) : DirectiveDefinition where
  name := name
  description := none
  arguments := [.builtin "if" (TypeRef.named "Boolean").nonNull none]
  locations := [.field, .fragmentSpread, .inlineFragment]
  repeatable := false
  location := .builtin

/-- Marks what should not be used any more. -/
def DirectiveDefinition.deprecated : DirectiveDefinition where
  name := "deprecated"
  description := none
  arguments := [.builtin "reason" (.named "String") (some (.string "No longer supported"))]
  locations := [.fieldDefinition, .argumentDefinition, .inputFieldDefinition, .enumValue]
  repeatable := false
  location := .builtin

/-- Says where a scalar is specified. -/
def DirectiveDefinition.specifiedBy : DirectiveDefinition where
  name := "specifiedBy"
  description := none
  arguments := [.builtin "url" (TypeRef.named "String").nonNull none]
  locations := [.scalar]
  repeatable := false
  location := .builtin

/-- The directives that every registry has. -/
def builtinDirectives : List DirectiveDefinition :=
  [.deprecated, .condition "include", .condition "skip", .specifiedBy]

namespace Registry

/-- The registry before any document. -/
def initial : Registry where
  types := builtinScalars.map fun name => (name, .builtinScalar name)
  directives := builtinDirectives.map fun directive => (directive.name, directive)
  roots := []
  schemaDirectives := []
  schemaLocation := none
  isFrozen := false

section Lookup

variable (registry : Registry)

/-- The type of a name. -/
def type? (name : String) : Option TypeDefinition := registry.types.find? name

/-- The kind of the type of a name. -/
def kind? (name : String) : Option TypeKind := (registry.type? name).map TypeDefinition.kind

/-- The type of a name, or the problem that there is none. -/
def resolve (name : String) : Except Problem TypeDefinition :=
  match registry.type? name with
  | some type => .ok type
  | none => .error (.unknownType name .builtin)

/-- The directive definition of a name. -/
def directive? (name : String) : Option DirectiveDefinition := registry.directives.find? name

/-- A field of a type, both by name. -/
def field? (type field : String) : Option FieldDefinition :=
  (registry.type? type).bind fun definition => definition.field? field

/-- The types that documents declare. -/
def userTypes : List TypeDefinition :=
  registry.types.values.filter fun type => !type.location.isBuiltin

/-- The directives that documents declare. -/
def userDirectives : List DirectiveDefinition :=
  registry.directives.values.filter fun directive => !directive.location.isBuiltin

/-- Whether some document says which types are roots. -/
def hasSchema : Bool := registry.schemaLocation.isSome || !registry.roots.isEmpty

/-- The root that schema blocks give an operation kind. -/
def declaredRoot? (kind : OperationKind) : Option NamedRef :=
  (registry.roots.find? fun entry => entry.1 == kind).map Prod.snd

/-- **The root type of an operation kind**: the declared one, or, when no schema block is given, the
type of the conventional name. -/
def rootType (kind : OperationKind) : Option String :=
  if registry.hasSchema then (registry.declaredRoot? kind).map NamedRef.name
  else (registry.type? kind.conventionalRoot).map fun _ => kind.conventionalRoot

/-- **The object types that a value of the given type can have**, by name. -/
def possibleTypes (name : String) : List String :=
  match registry.type? name with
  | none => []
  | some type =>
    match type.body with
    | .object .. => [type.name]
    | .interface .. =>
      (registry.types.values.filter fun other => other.kind == .object && other.lists name).map
        TypeDefinition.name
    | .union members =>
      NameSet.ofList ((members.map NamedRef.name).filter fun member =>
        registry.kind? member == some .object)
    | _ => []

/-- Whether a value of the given type can be of the given object type. -/
def isPossibleType (name object : String) : Bool := (registry.possibleTypes name).contains object

end Lookup

/-- A call that can change a registry. It leaves a registry behind also when it fails. -/
abbrev Action := ExceptT Problem (StateM Registry) Unit

/-- What a call returns on a registry, and the registry that it leaves behind. -/
def run (registry : Registry) (action : Action) : Except Problem Unit × Registry :=
  StateT.run (ExceptT.run action) registry

/-- Ends the growth of a registry. -/
def freeze (registry : Registry) : Registry := { registry with isFrozen := true }

/-- Fails on a frozen registry. -/
def ensureMutable (name : String) (location : Location) : Action := do
  if (← get).isFrozen then throw (.registryFrozen name location)

/-- Adds an entry of the given name, or fails with the given problem when its key is taken. -/
def addNew (name : String) (location : Location) (isTaken : Registry → Bool) (problem : Problem)
    (add : Registry → Registry) : Action := do
  ensureMutable name location
  if isTaken (← get) then throw problem
  modify add

/-- Adds a type. -/
def declare (type : TypeDefinition) : Action :=
  addNew type.name type.location (fun registry => registry.types.contains type.name)
    (.duplicateType type.name type.location)
    fun registry => { registry with types := registry.types.insert type.name type }

/-- Adds a directive definition. -/
def declareDirective (directive : DirectiveDefinition) : Action :=
  addNew directive.name directive.location
    (fun registry => registry.directives.contains directive.name)
    (.duplicateName "directive" directive.name directive.location)
    fun registry =>
      { registry with directives := registry.directives.insert directive.name directive }

/-- Roots are kept by operation kind. -/
def rootOrder (a b : OperationKind × NamedRef) : Ordering := compare a.1 b.1

/-- Declares the root type of an operation kind. -/
def setRoot (kind : OperationKind) (root : NamedRef) : Action :=
  addNew root.name root.location (fun registry => (registry.declaredRoot? kind).isSome)
    (.duplicateName "root operation type" kind.text root.location)
    fun registry => { registry with roots := insertBy rootOrder (kind, root) registry.roots }

end Registry

namespace DirectiveUse

/-- The written arguments in order, which tell two uses of one directive apart. -/
def argumentKey (use : DirectiveUse) : List String :=
  sortBy compare (use.arguments.map Argument.text)

def order (a b : DirectiveUse) : Ordering :=
  (compare a.name b.name).then (compareNames a.argumentKey b.argumentKey)

def sorted (uses : List DirectiveUse) : List DirectiveUse := sortBy order uses

end DirectiveUse

namespace TypeBody

/-- The two bodies one after the other; bodies of two kinds do not combine. -/
def append? : TypeBody → TypeBody → Option TypeBody
  | .scalar, .scalar => some .scalar
  | .object is fs, .object js gs => some (.object (is ++ js) (fs ++ gs))
  | .interface is fs, .interface js gs => some (.interface (is ++ js) (fs ++ gs))
  | .union ms, .union ns => some (.union (ms ++ ns))
  | .enum vs, .enum ws => some (.enum (vs ++ ws))
  | .inputObject fs, .inputObject gs => some (.inputObject (fs ++ gs))
  | _, _ => none

def sorted : TypeBody → TypeBody
  | .scalar => .scalar
  | .object is fs => .object (byReference is) (byField fs)
  | .interface is fs => .interface (byReference is) (byField fs)
  | .union ms => .union (byReference ms)
  | .enum vs => .enum (sortBy (fun a b => compare a.name b.name) vs)
  | .inputObject fs => .inputObject (sortBy (fun a b => compare a.name b.name) fs)
where
  byReference (entries : List NamedRef) : List NamedRef :=
    sortBy (fun a b => compare a.name b.name) entries
  byField (fields : List FieldDefinition) : List FieldDefinition :=
    sortBy (fun a b => compare a.name b.name) fields

end TypeBody

/-- **Merges an extension into its type.** What it adds comes behind what the type has, sorted by
name. -/
def Registry.extend (extension : TypeDefinition) : Action := do
  ensureMutable extension.name extension.location
  match (← get).type? extension.name with
  | none => throw (.unknownType extension.name extension.location)
  | some base =>
    match base.body.append? extension.body.sorted with
    | none =>
      throw (.kindMismatch extension.name ("an extension of " ++ base.kind.text) extension.kind
        extension.location)
    | some body =>
      let directives := base.directives ++ DirectiveUse.sorted extension.directives
      modify fun registry =>
        { registry with
          types := registry.types.insert extension.name { base with body, directives } }

end GraphClient
