import GraphClient.Diagnostic
import GraphClient.Schema.Definition

/-!
# Problems with definitions
-/

namespace GraphClient

/-- What can be wrong with a schema. -/
inductive Problem
  | duplicateType (name : String) (location : Location)
  | unknownType (name : String) (location : Location)
  | kindMismatch (name expected : String) (found : TypeKind) (location : Location)
  | registryFrozen (name : String) (location : Location)
  | unknownField (type field : String) (location : Location)
  | conformance (type interface field reason : String) (location : Location)
  | misplacedDirective (name : String) (place : DirectiveLocation) (location : Location)
  | duplicateField (owner name : String) (location : Location)
  | duplicateName (what name : String) (location : Location)
deriving DecidableEq

namespace Problem

def code : Problem → Code
  | .duplicateType .. => .duplicateType
  | .unknownType .. => .unknownType
  | .kindMismatch .. => .kindMismatch
  | .registryFrozen .. => .registryFrozen
  | .unknownField .. => .unknownField
  | .conformance .. => .conformance
  | .misplacedDirective .. => .directiveLocation
  | .duplicateField .. => .duplicateField
  | .duplicateName .. => .duplicateName

def title : Problem → String
  | .duplicateType .. => "duplicate type"
  | .unknownType .. => "unknown type"
  | .kindMismatch .. => "kind mismatch"
  | .registryFrozen .. => "registry frozen"
  | .unknownField .. => "unknown field"
  | .conformance .. => "interface conformance"
  | .misplacedDirective .. => "misplaced directive"
  | .duplicateField .. => "duplicate field"
  | .duplicateName .. => "duplicate name"

def location : Problem → Location
  | .duplicateType _ location => location
  | .unknownType _ location => location
  | .kindMismatch _ _ _ location => location
  | .registryFrozen _ location => location
  | .unknownField _ _ location => location
  | .conformance _ _ _ _ location => location
  | .misplacedDirective _ _ location => location
  | .duplicateField _ _ location => location
  | .duplicateName _ _ location => location

def message : Problem → String
  | .duplicateType name _ => "type " ++ ticked name ++ " is already declared"
  | .unknownType name _ => "unknown type " ++ ticked name
  | .kindMismatch name expected found _ =>
    ticked name ++ " is " ++ found.text ++ ", expected " ++ expected
  | .registryFrozen name _ => "cannot modify " ++ ticked name ++ ": the registry is frozen"
  | .unknownField type field _ => "type " ++ ticked type ++ " has no field " ++ ticked field
  | .conformance type interface field reason _ =>
    ticked type ++ " does not conform to " ++ ticked interface ++ ": field " ++ ticked field ++ " " ++
      reason
  | .misplacedDirective name place _ =>
    "directive " ++ ticked ("@" ++ name) ++ " is not allowed on " ++ place.text
  | .duplicateField owner name _ =>
    ticked owner ++ " declares " ++ ticked name ++ " more than once"
  | .duplicateName what name _ => what ++ " " ++ ticked name ++ " is defined more than once"

def diagnostic (problem : Problem) : Diagnostic :=
  .error problem.code problem.title problem.location problem.message

end Problem

end GraphClient
