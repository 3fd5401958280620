import GraphClient.Operation.Selection
import GraphClient.Schema.Definition

/-!
# Documents
-/

namespace GraphClient

/-- A text with its path and number. -/
structure Source where
  id : Nat
  path : String
  text : String
deriving DecidableEq

/-- Numbers the inputs by their position. The numbers end below that of the built-in definitions. -/
def Source.number (inputs : List (String × String)) : List Source :=
  inputs.zipIdx.map fun ((path, text), id) => ⟨min id (Location.builtinSource - 1), path, text⟩

/-- The definitions of one source, each list in the order of the text. -/
structure Document where
  source : Nat
  schemas : List SchemaDefinition
  types : List TypeDefinition
  extensions : List TypeDefinition
  directives : List DirectiveDefinition
  operations : List OperationDefinition
  fragments : List FragmentDefinition

end GraphClient
