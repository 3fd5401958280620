import GraphClient.Analysis
import GraphClient.Client.Kotlin
import GraphClient.Client.Rust
import GraphClient.Client.TypeScript

/-!
# Generating clients

A client has one file for each type and operation, a support file and an index. The same analysis and
options always give the same files in the same order.
-/

namespace GraphClient

/-- A file of a client. -/
structure GeneratedFile where
  path : String
  contents : String
deriving DecidableEq

/-- The files of a client, and what there is to say about them. -/
structure GeneratedClient where
  files : List GeneratedFile
  diagnostics : Diagnostics

/-- Why there is no client. -/
inductive GenerateError
  | fatal (diagnostics : Diagnostics)
  | registryNotFrozen
  | invalidMapping (scalar reason : String)
  | unknownLanguage (name : String)
  | nameCollision (name : String)

def GenerateError.message : GenerateError → String
  | .fatal diagnostics => toString diagnostics.errors.length ++ " fatal diagnostic(s) reported"
  | .registryNotFrozen => "the type registry is not frozen"
  | .invalidMapping scalar reason =>
    "invalid mapping for scalar " ++ ticked scalar ++ ": " ++ reason
  | .unknownLanguage name =>
    "unknown target language " ++ ticked name ++ " (expected typescript, rust or kotlin)"
  | .nameCollision name =>
    ticked name ++ " would be generated twice; rename the type or operation"

def Language.parse (name : String) : Except GenerateError Language :=
  match Language.ofText? name with
  | some language => .ok language
  | none => .error (.unknownLanguage name)

/-- What gets a file of its own. -/
inductive Declaration
  | type (definition : TypeDefinition)
  | operation (definition : BoundOperation)

namespace Declaration

def name : Declaration → String
  | .type definition => definition.name
  | .operation definition => definition.name

/-- The place of a declaration in the list of files, before its name. -/
def rank : Declaration → Nat
  | .type definition =>
    match definition.kind with
    | .scalar => 0
    | .enum => 1
    | .inputObject => 2
    | .interface => 3
    | .object => 4
    | .union => 5
  | .operation _ => 6

def order (a b : Declaration) : Ordering := (compare a.rank b.rank).then (compare a.name b.name)

def names (declaration : Declaration) : List String :=
  let name := declaration.name
  match declaration with
  | .type definition =>
    match definition.kind with
    | .enum => [name, name ++ "Values"]
    | .inputObject => [name, name ++ "Builder"]
    | _ => [name]
  | .operation _ => [name, name ++ "Variables", name ++ "Document"]

end Declaration

/-- **The declarations of an analysis**, in the order of their files. -/
def Analysis.declarations (analysis : Analysis) : List Declaration :=
  sortBy Declaration.order
    (analysis.registry.userTypes.map .type ++
      analysis.operations.map .operation)

def supportNames : List String :=
  ["JsonValue", "Decoder", "Encoder", "GraphQLRequest", "ShapeMismatchError", "GraphQLJson",
    "GraphQLOperations"]

def reserveAll : TakenNames → List String → Except GenerateError TakenNames
  | taken, [] => .ok taken
  | taken, name :: rest =>
    match taken.reserve? name with
    | some taken => reserveAll taken rest
    | none => .error (.nameCollision name)

def reservedNames (declarations : List Declaration) : Except GenerateError TakenNames :=
  reserveAll [] (supportNames ++ declarations.flatMap Declaration.names)

def mappingProblem? (registry : Registry) (name : String) : Option String :=
  match registry.type? name with
  | none => some "no such type in the schema"
  | some type =>
    if type.location.isBuiltin then some "built-in scalars have fixed mappings"
    else if type.kind = .scalar then none
    else some (ticked name ++ " is " ++ type.kind.text ++ ", not a scalar")

/-- The first name whose mapping is not possible, and why. -/
def checkMappings (registry : Registry) (names : List String) : Except GenerateError Unit :=
  match names.findSome? fun name =>
      (mappingProblem? registry name).map fun reason => (name, reason) with
  | some (name, reason) => .error (.invalidMapping name reason)
  | none => .ok ()

def unmappedScalars (registry : Registry) (options : Options) : Diagnostics :=
  (registry.userTypes.filter fun type =>
      type.kind == .scalar && !options.scalars.contains type.name).map fun type =>
    .warning .unmappedScalar "unmapped scalar" type.location
      ("scalar " ++ ticked type.name ++ " has no mapping and is generated as a JSON value")

namespace Target

variable (target : Target)

def path (declaration : Declaration) : String :=
  match target.language, declaration with
  | .typeScript, .type definition => TypeScript.typePath definition.name
  | .typeScript, .operation definition => TypeScript.operationPath definition.name
  | .rust, .type definition => Rust.typePath definition.name
  | .rust, .operation definition => Rust.operationPath definition.name
  | .kotlin, .type definition => Kotlin.typePath definition.name
  | .kotlin, .operation definition => Kotlin.operationPath definition.name

def typeText (definition : TypeDefinition) : String :=
  match target.language with
  | .typeScript => (TypeScript.typeModule target definition).text
  | .rust => (Rust.typeModule target definition).text
  | .kotlin => (Kotlin.typeModule target definition).text target.options.package

def operationText (operation : BoundOperation) (document root : String)
    (plans : List ShapePlan) : String :=
  match target.language with
  | .typeScript => (TypeScript.operationModule target operation document root plans).text
  | .rust => (Rust.operationModule target operation document root plans).text
  | .kotlin =>
    (Kotlin.operationModule target operation document root plans).text target.options.package

def supportFile : GeneratedFile :=
  match target.language with
  | .typeScript => ⟨"runtime.ts", TypeScript.supportText⟩
  | .rust => ⟨"runtime.rs", Rust.supportText⟩
  | .kotlin => ⟨"GraphQLRuntime.kt", Kotlin.supportModule.text target.options.package⟩

def indexFile (declarations : List Declaration) : GeneratedFile :=
  let types := declarations.filterMap fun
    | .type definition => some definition.name
    | .operation _ => none
  let operations := declarations.filterMap fun
    | .type _ => none
    | .operation definition => some definition.name
  match target.language with
  | .typeScript =>
    ⟨"index.ts", TypeScript.indexText (declarations.map fun
      | .type definition => "types/" ++ definition.name
      | .operation definition => "operations/" ++ definition.name)⟩
  | .rust => ⟨"mod.rs", Rust.indexText target.options.package types operations⟩
  | .kotlin =>
    ⟨"GraphQLOperations.kt", (Kotlin.indexModule operations).text target.options.package⟩

/-- The files of declarations. Each operation takes the names of its response types. -/
def declarationFiles (fragments : NameMap BoundFragment) :
    List Declaration → TakenNames → List GeneratedFile
  | [], _ => []
  | .type definition :: rest, taken =>
    ⟨target.path (.type definition), target.typeText definition⟩ ::
      declarationFiles fragments rest taken
  | .operation definition :: rest, taken =>
    let ((root, plans), taken) := planOperation definition.name definition.shape taken
    ⟨target.path (.operation definition),
        target.operationText definition (definition.document fragments) root plans⟩ ::
      declarationFiles fragments rest taken

end Target

/-- A path as file systems without letter case see it. -/
def foldCase (path : String) : String := String.ofList (path.toList.map Char.toLower)

/-- The first path that an earlier file has, letter case apart. -/
def repeatedPath? (paths : List String) : Option String :=
  ((markRepeats foldCase paths).find? Prod.snd).map Prod.fst

/-- **The client of an analysis.** There is none while the analysis has errors. -/
def generate (analysis : Analysis) (options : Options) (language : Language) :
    Except GenerateError GeneratedClient := do
  if analysis.diagnostics.hasErrors then throw (.fatal analysis.diagnostics)
  if !analysis.registry.isFrozen then throw .registryNotFrozen
  checkMappings analysis.registry options.scalars.names
  let target : Target := ⟨language, analysis.registry, options⟩
  let declarations := analysis.declarations
  let taken ← reservedNames declarations
  match repeatedPath? (declarations.map target.path) with
  | some path => throw (.nameCollision path)
  | none =>
    return {
      files := target.declarationFiles analysis.fragments declarations taken ++
        [target.supportFile, target.indexFile declarations]
      diagnostics := unmappedScalars analysis.registry options }

end GraphClient
