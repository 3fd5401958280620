import GraphClient.Files.System
import GraphClient.Json.Reader
import GraphClient.Project.Error

/-!
# Configuration

A configuration names the inputs and the client to generate. It is a JSON file; what the command line
says replaces what the file says.
-/

namespace GraphClient

/-- What a run is about. -/
structure Config where
  schema : List Path := []
  operations : List Path := []
  target : Option Language := none
  package : Option String := none
  output : Option Path := none
  scalars : NameMap ScalarMapping := []

/-- What the command line says instead. -/
structure Overrides where
  inputs : List Path := []
  target : Option Language := none
  package : Option String := none
  output : Option Path := none

def member? {α : Type} (missing : α) (read : Json → Option α) : Option Json → Option α
  | none => some missing
  | some value => read value

/-- **The mapping that a value stands for.** Only the type has to be there. -/
def ScalarMapping.ofJson? (json : Json) : Option ScalarMapping := do
  match ← json.record? ["type", "serializer", "deserializer", "import"] with
  | [some type, serializer, deserializer, source] =>
    return {
      type := ← type.text?
      serializer := ← member? none Json.optionalText? serializer
      deserializer := ← member? none Json.optionalText? deserializer
      source := ← member? none Json.optionalText? source }
  | _ => none

def paths? : Json → Option (List Path)
  | .string text => some [⟨text⟩]
  | .array items => items.mapM fun item => item.text?.map .mk
  | _ => none

def fullName? (name : String) : Option Language :=
  Language.all.find? fun language => language.text == name

/-- A language, or none. An object names it by its only member, which is null. -/
def target? : Json → Option (Option Language)
  | .null => some none
  | .string name => (fullName? name).map some
  | .object [(name, .null)] => (fullName? name).map some
  | _ => none

/-- Mappings by scalar; the last one of a scalar counts. -/
def scalars? : Json → Option (NameMap ScalarMapping)
  | .object members => do
    let mappings ← members.mapM fun (name, value) => do
      return (name, ← ScalarMapping.ofJson? value)
    return .ofList mappings
  | _ => none

namespace Config

def ofJson? (json : Json) : Option Config := do
  match ← json.record? ["schema", "operations", "target", "package", "output", "scalars"] with
  | [schema, operations, target, package, output, scalars] =>
    return {
      schema := ← member? [] paths? schema
      operations := ← member? [] paths? operations
      target := ← member? none target? target
      package := ← member? none Json.optionalText? package
      output := (← member? none Json.optionalText? output).map .mk
      scalars := ← member? [] scalars? scalars }
  | _ => none

def parse (path : Path) (text : String) : Except ProjectError Config :=
  match (Json.read? text).bind ofJson? with
  | some config => .ok config
  | none => .error (.invalidConfig path)

def rebase (config : Config) (base : Path) : Config :=
  { config with
    schema := config.schema.map base.join
    operations := config.operations.map base.join
    output := config.output.map base.join }

/-- The configuration with the choices of a command line. Inputs replace all inputs. -/
def apply (config : Config) (overrides : Overrides) : Config :=
  let config := if overrides.inputs.isEmpty then config
    else { config with schema := overrides.inputs, operations := [] }
  { config with
    target := overrides.target.or config.target
    package := overrides.package.or config.package
    output := overrides.output.or config.output }

def inputs (config : Config) : List Path := config.schema ++ config.operations

def language (config : Config) : Language := config.target.getD .typeScript

def options (config : Config) : Options :=
  match config.package with
  | some package => { package, scalars := config.scalars }
  | none => { scalars := config.scalars }

variable {m : Type → Type} [Monad m] [FileSystem m]

/-- Reads a configuration file. Its paths are seen from its directory. -/
def load (path : Path) : ExceptT ProjectError m Config := do
  match ← FileSystem.readText path with
  | some text =>
    match parse path text with
    | .ok config => return config.rebase (path.parent.getD .empty)
    | .error cause => throw cause
  | none => throw (.inaccessible path)

/-- **The configuration of a run**: that of the given file, of the file with the usual name, or none
at all. -/
def discover : Option Path → ExceptT ProjectError m Config
  | some path => load path
  | none => do
    let path : Path := ⟨configName⟩
    if ← FileSystem.isFile path then load path else return {}

end Config

end GraphClient
