import GraphClient.Syntax.Literals

/-!
# Reading type system definitions
-/

namespace GraphClient.Syntax.Parser

def inputValueDefinition : Parser InputValueDefinition := do
  let description ← description?
  let start ← startOf description
  let name ← name
  expect (.mark .colon)
  let type ← typeExpr
  let defaultValue ← defaultValue?
  let directives ← directives true
  return ⟨description, name, type, defaultValue, directives, ← spanFrom start⟩

def argumentDefinitions : Parser (List InputValueDefinition) := do
  if ← eat (.mark .leftParen) then
    let items ← repeatUntil (.mark .rightParen) inputValueDefinition
    expect (.mark .rightParen)
    return items
  else
    return []

def fieldDefinition : Parser FieldDefinition := do
  let description ← description?
  let start ← startOf description
  let name ← name
  let arguments ← argumentDefinitions
  expect (.mark .colon)
  let type ← typeExpr
  let directives ← directives true
  return ⟨description, name, arguments, type, directives, ← spanFrom start⟩

def enumValueDefinition : Parser EnumValueDefinition := do
  let description ← description?
  let start ← startOf description
  let kind ← kind
  if kind == .keyword .trueWord || kind == .keyword .falseWord || kind == .keyword .nullWord then
    errorHere "enum values cannot be true, false or null"
  let name ← name
  let directives ← directives true
  return ⟨description, name, directives, ← spanFrom start⟩

def bodyOf {α : Type} (item : Parser α) : Parser (List α) := do
  if ← eat (.mark .leftBrace) then
    let items ← repeatUntil (.mark .rightBrace) item
    expect (.mark .rightBrace)
    return items
  else
    return []

def implements : Parser (List Name) := do
  if ← eat (.keyword .implements) then
    separatedBy (.mark .ampersand) name
  else
    return []

def unionMembers : Parser (List Name) := do
  if ← eat (.mark .equals) then
    separatedBy (.mark .pipe) name
  else
    return []

/-- Directives and body of a type whose definition starts with `keyword`. -/
def typeBody (keyword : Keyword) : Parser (List Directive × TypeBody) := do
  match keyword with
  | .scalar => return (← directives true, .scalar)
  | .type =>
    let implements ← implements
    let directives ← directives true
    return (directives, .object implements (← bodyOf fieldDefinition))
  | .interface =>
    let implements ← implements
    let directives ← directives true
    return (directives, .interface implements (← bodyOf fieldDefinition))
  | .union =>
    let directives ← directives true
    return (directives, .union (← unionMembers))
  | .enum =>
    let directives ← directives true
    return (directives, .enum (← bodyOf enumValueDefinition))
  | _ =>
    let directives ← directives true
    return (directives, .input (← bodyOf inputValueDefinition))

def typeKeyword? : TokenKind → Option Keyword
  | .keyword .type => some .type
  | .keyword .interface => some .interface
  | .keyword .union => some .union
  | .keyword .enum => some .enum
  | .keyword .input => some .input
  | .keyword .scalar => some .scalar
  | _ => none

/-- **A type definition** that starts at `start`. -/
def typeDefinition? (description : Option Description) (start : Nat) :
    Parser (Option TypeDefinition) := do
  match typeKeyword? (← kind) with
  | none =>
    errorHere "expected type definition"
    return none
  | some keyword =>
    advance
    let name ← name
    let (directives, body) ← typeBody keyword
    return some ⟨description, name, directives, body, ← spanFrom start⟩

def operationKind? : Parser (Option OperationKind) := do
  match ← kind with
  | .keyword .query => advance; return some .query
  | .keyword .mutation => advance; return some .mutation
  | .keyword .subscription => advance; return some .subscription
  | _ => return none

def rootDefinition? : Parser (Option RootDefinition) := do
  let start ← position
  match ← operationKind? with
  | some operation =>
    expect (.mark .colon)
    let type ← name
    return some ⟨operation, type, ← spanFrom start⟩
  | none =>
    errorHere "expected operation type"
    return none

/-- **A schema block** that starts at `start`. An extension may lack its body. -/
def schemaDefinition (description : Option Description) (start : Nat) (extension : Bool) :
    Parser SchemaDefinition := do
  advance
  let directives ← directives true
  let hasBody := (← atKind (.mark .leftBrace)) || !extension
  let roots ←
    if hasBody then do
      expect (.mark .leftBrace)
      let roots ← repeatUntil (.mark .rightBrace) rootDefinition?
      expect (.mark .rightBrace)
      pure (roots.filterMap id)
    else
      pure []
  return ⟨description, directives, roots, ← spanFrom start⟩

def directiveLocation? : Parser (Option (DirectiveLocation × Span)) := do
  let token ← current
  let known := if token.kind.isName then DirectiveLocation.ofText? token.text else none
  match known with
  | some location =>
    advance
    return some (location, token.span)
  | none =>
    errorAt token.span "unknown directive location"
      ("`" ++ token.text ++ "` is not a directive location")
    if token.kind.isName then advance
    return none

def directiveDefinition (description : Option Description) : Parser DirectiveDefinition := do
  let start ← startOf description
  advance
  expect (.mark .atSign)
  let name ← name
  let arguments ← argumentDefinitions
  let repeatable ← eat (.keyword .repeatable)
  expect (.keyword .on)
  let locations ← separatedBy (.mark .pipe) directiveLocation?
  return ⟨description, name, arguments, repeatable, locations.filterMap id, ← spanFrom start⟩

end GraphClient.Syntax.Parser
