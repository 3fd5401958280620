import GraphClient.Diagnostic
import GraphClient.Operation.Selection

/-!
# The order of fragments

A fragment is bound after the fragments that it spreads. The order comes from a walk along the spreads;
a spread that leads back to a fragment on the way closes a cycle.
-/

namespace GraphClient

/-- The walk through fragments so far. -/
structure FragmentWalk where
  /-- The fragments left behind, in order. -/
  order : List String := []
  diagnostics : Diagnostics := []

namespace FragmentWalk

def cycle (path : List String) (spread : Spread) : Diagnostic :=
  .error .fragmentCycle "fragment cycle" spread.location
    ("fragments spread each other: " ++
      String.intercalate " -> " (path.dropWhile (· != spread.name) ++ [spread.name]))

/-- Follows one spread: `path` leads here, and `enter` walks on into a fragment not seen before. -/
def follow (declared : NameMap FragmentDefinition) (path : List String)
    (enter : String → FragmentWalk → FragmentWalk) (walk : FragmentWalk) (spread : Spread) :
    FragmentWalk :=
  if !declared.contains spread.name then walk
  else if path.contains spread.name then
    { walk with diagnostics := walk.diagnostics ++ [cycle path spread] }
  else if walk.order.contains spread.name then walk
  else enter spread.name walk

/-- Walks from the fragment `name`, which is reached along `path`. The fragments on a path differ, so
`fuel` is enough when it counts the fragments that are not on it. -/
def visit (declared : NameMap FragmentDefinition) :
    (fuel : Nat) → (path : List String) → (name : String) → FragmentWalk → FragmentWalk
  | 0, _, _, walk => walk
  | fuel + 1, path, name, walk =>
    match declared.find? name with
    | none => walk
    | some fragment =>
      let here := path ++ [name]
      let walk := (Selection.spreadsIn fragment.selections).foldl
        (follow declared here (visit declared fuel here)) walk
      { walk with order := walk.order ++ [name] }

end FragmentWalk

/-- **The declared fragments, each behind those that it spreads**, with a report for each spread that
closes a cycle. -/
def fragmentOrder (declared : NameMap FragmentDefinition) : List String × Diagnostics :=
  let walk := declared.names.foldl
    (fun (walk : FragmentWalk) name =>
      if walk.order.contains name then walk else walk.visit declared declared.length [] name)
    {}
  (walk.order, walk.diagnostics)

end GraphClient
