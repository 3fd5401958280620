import GraphClient.Client.Language
import GraphClient.Schema.Registry

/-!
# Scalars in client code
-/

namespace GraphClient

/-- How values of a scalar are represented. -/
structure ScalarMapping where
  type : String
  serializer : Option String := none
  deserializer : Option String := none
  source : Option String := none
deriving DecidableEq

def ScalarMapping.hasHooks (mapping : ScalarMapping) : Bool :=
  mapping.serializer.isSome || mapping.deserializer.isSome

/-- What the files of a client depend on. -/
structure Options where
  package : String := "generated"
  scalars : NameMap ScalarMapping := []

def nativeType : Language → String → Option String
  | .typeScript, "String" => some "string"
  | .typeScript, "ID" => some "string"
  | .typeScript, "Int" => some "number"
  | .typeScript, "Float" => some "number"
  | .typeScript, "Boolean" => some "boolean"
  | .rust, "String" => some "String"
  | .rust, "ID" => some "String"
  | .rust, "Int" => some "i32"
  | .rust, "Float" => some "f64"
  | .rust, "Boolean" => some "bool"
  | .kotlin, "String" => some "String"
  | .kotlin, "ID" => some "String"
  | .kotlin, "Int" => some "Int"
  | .kotlin, "Float" => some "Double"
  | .kotlin, "Boolean" => some "Boolean"
  | _, _ => none

/-- What represents a scalar. -/
inductive ScalarTarget
  | native (type : String)
  | mapped (mapping : ScalarMapping)
  | json

/-- All that the files of a client depend on. -/
structure Target where
  language : Language
  registry : Registry
  options : Options

namespace Target

variable (target : Target)

/-- **The representation of a scalar**; other types have none. -/
def scalar? (name : String) : Option ScalarTarget :=
  if target.registry.kind? name = some .scalar then
    match nativeType target.language name with
    | some type => some (.native type)
    | none =>
      match target.options.scalars.find? name with
      | some mapping => some (.mapped mapping)
      | none => some .json
  else none

def native? (name : String) : Option String :=
  match target.scalar? name with
  | some (.native type) => some type
  | _ => none

end Target

end GraphClient
