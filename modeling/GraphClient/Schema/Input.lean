import GraphClient.Repeats
import GraphClient.Schema.Registry

/-!
# Input values

Literals are checked against the type that their place expects. Variables are not: their uses are
collected, and the operation that declares them is asked later.
-/

namespace GraphClient

/-- A variable with the type that its place expects. -/
structure VariableUse where
  name : String
  expected : TypeRef
  /-- Whether that place has a default of its own. -/
  hasDefault : Bool
  location : Location
deriving DecidableEq

/-- What is found in a value. -/
structure Findings where
  diagnostics : Diagnostics := []
  uses : List VariableUse := []

namespace Findings

instance : Append Findings where
  append a b := ⟨a.diagnostics ++ b.diagnostics, a.uses ++ b.uses⟩

def none : Findings := {}

def invalid (location : Location) (message : String) : Findings :=
  { diagnostics := [.error .invalidValue "invalid value" location message] }

def all {α : Type} (check : α → Findings) : List α → Findings
  | [] => none
  | entry :: rest => check entry ++ all check rest

end Findings

def fitsInt32 (n : Int) : Bool := -2147483648 ≤ n && n ≤ 2147483647

/-- Whether a scalar accepts a literal. Scalars that are not built in accept every literal. -/
def scalarAccepts (scalar : String) (value : Value) : Bool :=
  if scalar = "Int" then
    match value with
    | .int n => fitsInt32 n
    | _ => false
  else if scalar = "Float" then
    match value with
    | .int _ => true
    | .float _ => true
    | _ => false
  else if scalar = "String" then
    match value with
    | .string _ => true
    | _ => false
  else if scalar = "Boolean" then
    match value with
    | .boolean _ => true
    | _ => false
  else if scalar = "ID" then
    match value with
    | .string _ => true
    | .int _ => true
    | _ => false
  else true

/-- Whether an item can stand where a list is expected inside a list. -/
def canNest : Value → Bool
  | .list _ => true
  | .null => true
  | .variable _ => true
  | _ => false

def mismatch (expected : TypeRef) (value : Value) (location : Location) : Findings :=
  .invalid location ("expected " ++ ticked expected.text ++ ", found " ++ value.text)

/-- A value against a named type, the fields of objects apart. Types that are unknown or no input
types are reported elsewhere. -/
def checkNamed (registry : Registry) (value : Value) (expected : TypeRef) (location : Location) :
    Findings :=
  match registry.type? expected.name with
  | none => .none
  | some type =>
    match type.body with
    | .scalar => if scalarAccepts type.name value then .none else mismatch expected value location
    | .enum values =>
      match value with
      | .enum name =>
        if values.any fun entry => entry.name == name then .none
        else .invalid location (ticked name ++ " is not a value of enum " ++ ticked type.name)
      | _ => mismatch expected value location
    | .inputObject _ => mismatch expected value location
    | _ => .none

def Registry.inputObject? (registry : Registry) (name : String) :
    Option (String × List InputValueDefinition) :=
  match registry.type? name with
  | some type =>
    match type.body with
    | .inputObject fields => some (type.name, fields)
    | _ => none
  | none => none

def missingFields (owner : String) (inputs : List InputValueDefinition) (given : List String)
    (location : Location) : Findings :=
  .all (fun input =>
      .invalid location
        ("missing required field " ++ ticked input.name ++ " of " ++ ticked owner))
    (inputs.filter fun input => input.isRequired && !given.contains input.name)

mutual

/-- **A value against the type expected at `location`.** A value that is no list stands for a list of
one item, at any depth; an item of a list literal does not. -/
def checkValue (registry : Registry) (value : Value) (expected : TypeRef) (hasDefault : Bool)
    (location : Location) : Findings :=
  match value with
  | .variable name => { uses := [⟨name, expected, hasDefault, location⟩] }
  | .null =>
    if expected.isNonNull then
      .invalid location ("null is not allowed for " ++ ticked expected.text)
    else .none
  | .list items =>
    match expected.element with
    | some element => checkItems registry items element location
    | none => checkNamed registry (.list items) expected location
  | .object fields =>
    match registry.inputObject? expected.name with
    | some (owner, inputs) =>
      checkFields registry owner inputs [] fields location ++
        missingFields owner inputs (fields.map Prod.fst) location
    | none => checkNamed registry (.object fields) expected.innermost location
  | other => checkNamed registry other expected.innermost location

def checkItems (registry : Registry) (items : List Value) (element : TypeRef)
    (location : Location) : Findings :=
  match items with
  | [] => .none
  | item :: rest =>
    (if element.isList && !canNest item then mismatch element item location
      else checkValue registry item element false location) ++
    checkItems registry rest element location

/-- The fields of an object literal against the fields of an input object; `seen` holds the names
given before. -/
def checkFields (registry : Registry) (owner : String) (inputs : List InputValueDefinition)
    (seen : List String) (fields : List (String × Value)) (location : Location) : Findings :=
  match fields with
  | [] => .none
  | (name, value) :: rest =>
    (if seen.contains name then
        .invalid location ("field " ++ ticked name ++ " is given more than once")
      else
        match InputValueDefinition.find? inputs name with
        | some input =>
          checkValue registry value input.type input.defaultValue.isSome location
        | none => .invalid location (ticked owner ++ " has no field " ++ ticked name)) ++
    checkFields registry owner inputs (name :: seen) rest location

end

def Problem.findings (problem : Problem) : Findings := { diagnostics := [problem.diagnostic] }

def checkArgument (registry : Registry) (owner : String) (definitions : List InputValueDefinition)
    (argument : Argument) : Findings :=
  match InputValueDefinition.find? definitions argument.name with
  | some input =>
    checkValue registry argument.value input.type input.defaultValue.isSome argument.location
  | none =>
    { diagnostics := [.error .unknownArgument "unknown argument" argument.location
        (ticked owner ++ " has no argument " ++ ticked argument.name)] }

/-- **Arguments against their definitions.** -/
def checkArguments (registry : Registry) (owner : String) (definitions : List InputValueDefinition)
    (arguments : List Argument) (location : Location) : Findings :=
  .all (fun (argument, repeated) =>
      if repeated then
        (Problem.duplicateName "argument" argument.name argument.location).findings
      else checkArgument registry owner definitions argument)
    (markRepeats Argument.name arguments) ++
  .all (fun input =>
      { diagnostics := [.error .missingArgument "missing argument" location
          (ticked owner ++ " requires argument " ++
            ticked (input.name ++ ": " ++ input.type.text))] })
    (definitions.filter fun input =>
      input.isRequired && !(arguments.map Argument.name).contains input.name)

def checkUse (registry : Registry) (place : DirectiveLocation) (use : DirectiveUse)
    (repeated : Bool) : Findings :=
  match registry.directive? use.name with
  | none =>
    { diagnostics := [.error .unknownDirective "unknown directive" use.location
        ("directive " ++ ticked ("@" ++ use.name) ++ " is not defined")] }
  | some directive =>
    (if directive.locations.contains place then .none
      else (Problem.misplacedDirective use.name place use.location).findings) ++
    (if repeated && !directive.repeatable then
        { diagnostics := [.error .repeatedDirective "repeated directive" use.location
            ("directive " ++ ticked ("@" ++ use.name) ++ " is not repeatable")] }
      else .none) ++
    checkArguments registry ("@" ++ use.name) directive.arguments use.arguments use.location

/-- **The directives of one element**, which stands at `place`. -/
def checkDirectives (registry : Registry) (place : DirectiveLocation) (uses : List DirectiveUse) :
    Findings :=
  .all (fun (use, repeated) => checkUse registry place use repeated)
    (markRepeats DirectiveUse.name uses)

end GraphClient
