import GraphClient.Position
import GraphClient.Value

/-!
# Directives in use
-/

namespace GraphClient

/-- A name with its place. -/
structure NamedRef where
  name : String
  location : Location
deriving DecidableEq

/-- A name with a value. -/
structure Argument where
  name : String
  value : Value
  location : Location

def Argument.text (argument : Argument) : String :=
  argument.name ++ ": " ++ argument.value.text

/-- A directive with its arguments. -/
structure DirectiveUse where
  name : String
  arguments : List Argument
  location : Location

namespace DirectiveUse

def argument? (use : DirectiveUse) (name : String) : Option Value :=
  (use.arguments.find? fun argument => argument.name == name).map Argument.value

def deprecation? (uses : List DirectiveUse) : Option DirectiveUse :=
  uses.find? fun use => use.name == "deprecated"

def reason? (use : DirectiveUse) : Option String :=
  match use.argument? "reason" with
  | some (.string reason) => some reason
  | _ => none

def isConditional (uses : List DirectiveUse) : Bool :=
  uses.any fun use => use.name == "skip" || use.name == "include"

end DirectiveUse

end GraphClient
