import GraphClient.Syntax.Executable
import GraphClient.Token.Scan

/-!
# Reading documents
-/

namespace GraphClient.Syntax

namespace Parser

/-- Whether a token of this kind can start a definition, for going on after an error. -/
def startsDefinition : TokenKind → Bool
  | .eof => true
  | .keyword .schema => true
  | .keyword .extend => true
  | .keyword .type => true
  | .keyword .interface => true
  | .keyword .union => true
  | .keyword .enum => true
  | .keyword .input => true
  | .keyword .scalar => true
  | .keyword .directive => true
  | .keyword .query => true
  | .keyword .mutation => true
  | .keyword .subscription => true
  | .keyword .fragment => true
  | .string => true
  | .blockString => true
  | _ => false

/-- Goes on behind the current token, at something that can start a definition. -/
def recover : Parser Unit := do
  advance
  skipTo startsDefinition

def rejectDescription : Option Description → Parser Unit
  | some description =>
    errorAt description.span "unexpected description"
      "executable definitions cannot carry a description"
  | none => return ()

def extension? (description : Option Description) : Parser (Option Definition) := do
  let start ← position
  advance
  match description with
  | some description =>
    errorAt description.span "description on extension" "extensions cannot carry a description"
  | none => pure ()
  if ← atKind (.keyword .schema) then
    return some (.schemaExtension (← schemaDefinition none start true))
  else
    return (← typeDefinition? none start).map .typeExtension

def definition? : Parser (Option Definition) := do
  let description ← description?
  match ← kind with
  | .keyword .extend => extension? description
  | .keyword .schema =>
    let start ← startOf description
    return some (.schema (← schemaDefinition description start false))
  | .keyword .directive => return some (.directive (← directiveDefinition description))
  | .keyword .fragment =>
    rejectDescription description
    return some (.fragment (← fragment))
  | .keyword .query | .keyword .mutation | .keyword .subscription | .mark .leftBrace =>
    rejectDescription description
    return some (.operation (← operation))
  | kind =>
    if (typeKeyword? kind).isSome then
      let start ← startOf description
      return (← typeDefinition? description start).map .type
    else
      errorHere "expected definition"
      return none

def definitionOrRecover : Parser (Option Definition) := do
  let definition ← definition?
  if definition.isNone then recover
  return definition

def document : Parser Document := do
  let start ← position
  let definitions ← repeatUntil .eof definitionOrRecover
  let last ← current
  return ⟨definitions.filterMap id, ⟨start, last.span.stop⟩⟩

end Parser

def Cursor.ofTokens (source : Nat) (tokens : List Token) : Cursor × Diagnostics :=
  Cursor.skip source ⟨.eof, .empty 0, ""⟩ tokens

/-- **Parses a text.** -/
def parse (source : Nat) (text : String) : Document × Diagnostics :=
  let (cursor, skipped) := Cursor.ofTokens source (tokenize text)
  let outcome := Parser.document cursor
  (outcome.value, skipped ++ outcome.diagnostics)

end GraphClient.Syntax
