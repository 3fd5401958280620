import GraphClient.Syntax.TypeSystem

/-!
# Reading executable definitions

A selection set inside another one is reached behind a token of its own, so the number of tokens
bounds the nesting.
-/

namespace GraphClient.Syntax.Parser

def fieldSelection (inner : Parser SelectionSet) : Parser Selection := do
  let start ← position
  let first ← name
  let (label, name) ←
    if ← eat (.mark .colon) then do
      let second ← name
      pure (some first, second)
    else
      pure (none, first)
  let arguments ← arguments false
  let directives ← directives false
  let (braces, selections) ←
    if ← atKind (.mark .leftBrace) then do
      let set ← inner
      pure (some set.span, set.selections)
    else
      pure (none, [])
  return .field ⟨label, name, arguments, directives, ← spanFrom start⟩ braces selections

/-- The rest of an inline fragment that starts at `start`. -/
def inlineFragment (inner : Parser SelectionSet) (start : Nat) (condition : Option Name) :
    Parser Selection := do
  let directives ← directives false
  let set ← inner
  return .inline condition directives set.span set.selections (← spanFrom start)

def selection (inner : Parser SelectionSet) : Parser Selection := do
  let start ← position
  if ← eat (.mark .spread) then
    if ← eat (.keyword .on) then
      let condition ← name
      inlineFragment inner start (some condition)
    else
      let kind ← kind
      if kind == .mark .leftBrace || kind == .mark .atSign then
        inlineFragment inner start none
      else
        let name ← name
        let directives ← directives false
        return .spread name directives (← spanFrom start)
  else
    fieldSelection inner

/-- A selection set, with `inner` for those inside it. -/
def selectionSetOf (inner : Parser SelectionSet) : Parser SelectionSet := do
  let start ← position
  expect (.mark .leftBrace)
  let selections ← repeatUntil (.mark .rightBrace) (selection inner)
  if selections.isEmpty then errorHere "selection set cannot be empty"
  expect (.mark .rightBrace)
  return ⟨selections, ← spanFrom start⟩

/-- A selection set that nests less than `levels` deep. -/
def selectionSetWithin : Nat → Parser SelectionSet
  | 0 => return ⟨[], ⟨0, 0⟩⟩
  | levels + 1 => selectionSetOf (selectionSetWithin levels)

def selectionSet : Parser SelectionSet :=
  fun cursor => selectionSetWithin (cursor.ahead.length + 1) cursor

def variableDefinition : Parser VariableDefinition := do
  let start ← position
  expect (.mark .dollar)
  let name ← name
  expect (.mark .colon)
  let type ← typeExpr
  let defaultValue ← defaultValue?
  let directives ← directives true
  return ⟨name, type, defaultValue, directives, ← spanFrom start⟩

def variableDefinitions : Parser (List VariableDefinition) := do
  if ← eat (.mark .leftParen) then
    let items ← repeatUntil (.mark .rightParen) variableDefinition
    expect (.mark .rightParen)
    return items
  else
    return []

def operationName? : Parser (Option Name) := do
  if ← atName then
    return some (← name)
  else
    return none

/-- **An operation.** A selection set alone is a query without a name. -/
def operation : Parser OperationDefinition := do
  let start ← position
  let (kind, name) ← (do
    match ← operationKind? with
    | none => return (.query, none)
    | some kind => return (kind, ← operationName?))
  let parameters ← variableDefinitions
  let directives ← directives false
  let body ← selectionSet
  return ⟨kind, name, parameters, directives, body, ← spanFrom start⟩

def fragment : Parser FragmentDefinition := do
  let start ← position
  advance
  if ← atKind (.keyword .on) then errorHere "fragment name cannot be `on`"
  let name ← name
  expect (.keyword .on)
  let condition ← .name
  let directives ← directives false
  let body ← selectionSet
  return ⟨name, condition, directives, body, ← spanFrom start⟩

end GraphClient.Syntax.Parser
