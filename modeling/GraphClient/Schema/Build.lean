import GraphClient.Document
import GraphClient.Schema.Registry

/-!
# Building a registry

The definitions of all documents are put into one order before they enter the registry, so the result
does not depend on the order of the documents. Types come first, then directives, schema blocks and
extensions; at the end every reference has to name a type.
-/

namespace GraphClient

namespace Registry

/-- Makes one call after the other, and reports those that fail. -/
def attemptAll {α : Type} (call : α → Action) : Registry → List α → Registry × Diagnostics
  | registry, [] => (registry, [])
  | registry, entry :: rest =>
    let (result, left) := registry.run (call entry)
    let (last, diagnostics) := attemptAll call left rest
    match result with
    | .ok _ => (last, diagnostics)
    | .error problem => (last, problem.diagnostic :: diagnostics)

def orderedTypes (documents : List Document) : List TypeDefinition :=
  sortBy (fun a b => (compare a.name b.name).then (compare a.location b.location))
    (documents.flatMap Document.types)

def orderedDirectives (documents : List Document) : List DirectiveDefinition :=
  sortBy (fun a b => (compare a.name b.name).then (compare a.location b.location))
    (documents.flatMap Document.directives)

/-- The schema blocks of all documents: definitions before extensions, then by place. -/
def orderedSchemas (documents : List Document) : List SchemaDefinition :=
  sortBy (fun a b => (compare a.isExtension b.isExtension).then (compare a.location b.location))
    (documents.flatMap Document.schemas)

/-- Takes the roots of a schema block. Only one block may define the schema. -/
def applySchema (registry : Registry) (schema : SchemaDefinition) : Registry × Diagnostics :=
  if schema.isExtension then
    attemptAll (fun root => setRoot root.1 root.2) registry schema.roots
  else if registry.schemaLocation.isSome then
    (registry, [(Problem.duplicateName "schema definition" "schema" schema.location).diagnostic])
  else
    attemptAll (fun root => setRoot root.1 root.2)
      { registry with
        schemaLocation := some schema.location
        schemaDirectives := schema.directives }
      schema.roots

def applyEach : Registry → List SchemaDefinition → Registry × Diagnostics
  | registry, [] => (registry, [])
  | registry, schema :: rest =>
    let (first, diagnostics) := registry.applySchema schema
    let (last, more) := applyEach first rest
    (last, diagnostics ++ more)

/-- Takes all schema blocks. The directives of extensions come behind those of the definition. -/
def applySchemas (registry : Registry) (documents : List Document) : Registry × Diagnostics :=
  let schemas := orderedSchemas documents
  let (last, diagnostics) := applyEach registry schemas
  let added := (schemas.filter SchemaDefinition.isExtension).flatMap SchemaDefinition.directives
  ({ last with schemaDirectives := last.schemaDirectives ++ DirectiveUse.sorted added }, diagnostics)

def extensionKey (extension : TypeDefinition) : String × TypeKind :=
  (extension.name, extension.kind)

def keyOrder (a b : String × TypeKind) : Ordering := (compare a.1 b.1).then (compare a.2 b.2)

/-- The second extension behind the first, which gives name and place. -/
def joinExtensions (first second : TypeDefinition) : TypeDefinition :=
  match first.body.append? second.body with
  | some body => { first with body, directives := first.directives ++ second.directives }
  | none => first

/-- The extensions of each name and kind as one, by name and kind. The parts of one follow their
places. -/
def extensionGroups (documents : List Document) : List TypeDefinition :=
  let extensions := documents.flatMap Document.extensions
  let keys := (sortBy keyOrder (extensions.map extensionKey)).eraseDups
  keys.filterMap fun key =>
    match sortBy (fun a b => compare a.location b.location)
        (extensions.filter fun extension => extensionKey extension == key) with
    | [] => none
    | first :: rest => some (rest.foldl joinExtensions first)

def checkReference (registry : Registry) (name : String) (location : Location) : Diagnostics :=
  if registry.types.contains name then [] else [(Problem.unknownType name location).diagnostic]

def checkInputReferences (registry : Registry) (inputs : List InputValueDefinition) : Diagnostics :=
  inputs.flatMap fun input => registry.checkReference input.type.name input.location

def checkFieldReferences (registry : Registry) (fields : List FieldDefinition) : Diagnostics :=
  fields.flatMap fun field =>
    registry.checkReference field.type.name field.location ++
      registry.checkInputReferences field.arguments

def checkNamedReferences (registry : Registry) (entries : List NamedRef) : Diagnostics :=
  entries.flatMap fun entry => registry.checkReference entry.name entry.location

def checkTypeReferences (registry : Registry) (type : TypeDefinition) : Diagnostics :=
  match type.body with
  | .scalar => []
  | .enum _ => []
  | .object implements fields =>
    registry.checkNamedReferences implements ++ registry.checkFieldReferences fields
  | .interface implements fields =>
    registry.checkNamedReferences implements ++ registry.checkFieldReferences fields
  | .union members => registry.checkNamedReferences members
  | .inputObject fields => registry.checkInputReferences fields

/-- **Every reference has to name a type.** -/
def checkReferences (registry : Registry) : Diagnostics :=
  registry.types.values.flatMap registry.checkTypeReferences ++
    (registry.directives.values.flatMap fun directive =>
      registry.checkInputReferences directive.arguments) ++
    registry.checkNamedReferences (registry.roots.map Prod.snd)

/-- **The registry of a list of documents**, with every problem found on the way. -/
def build (documents : List Document) : Registry × Diagnostics :=
  let (registry, typeProblems) := attemptAll declare initial (orderedTypes documents)
  let (registry, directiveProblems) :=
    attemptAll declareDirective registry (orderedDirectives documents)
  let (registry, schemaProblems) := registry.applySchemas documents
  let (registry, extensionProblems) := attemptAll extend registry (extensionGroups documents)
  (registry, typeProblems ++ directiveProblems ++ schemaProblems ++ extensionProblems ++
    registry.checkReferences)

end Registry

end GraphClient
