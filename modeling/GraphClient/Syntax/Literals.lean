import GraphClient.Syntax.Parser
import GraphClient.Syntax.Tree
import GraphClient.Text.Block
import GraphClient.Text.Quoted

/-!
# Reading names, values, types and directives

Values and types nest. Each level takes a token, so the number of tokens bounds the nesting.
-/

namespace GraphClient.Syntax.Parser

/-- A name. Where there is none, the problem is reported and nothing is taken. -/
def name : Parser Name := do
  let token ← current
  if token.kind.isName then
    advance
    return ⟨token.text, token.span⟩
  else
    errorHere "expected name"
    return ⟨"", token.span⟩

def stringText : Parser String := do
  let token ← current
  match Text.stringValue token.text with
  | .ok text => return text
  | .error escape =>
    errorAt token.span "invalid escape sequence" ("`" ++ escape.text ++ "` is not a valid escape")
    return ""

def description? : Parser (Option Description) := do
  let token ← current
  match token.kind with
  | .string =>
    let text ← stringText
    advance
    return some ⟨text, token.span⟩
  | .blockString =>
    advance
    return some ⟨Text.blockValue token.text, token.span⟩
  | _ => return none

/-- Where a definition starts: at its description, or else at the current token. -/
def startOf : Option Description → Parser Nat
  | some description => return description.span.start
  | none => position

/-- The number of an integer literal, if it fits 64 bits. -/
def intValue? (text : String) : Option Int :=
  let value := Binary64.signedValue text.toList
  if -9223372036854775808 ≤ value ∧ value ≤ 9223372036854775807 then some value else none

def int : Parser Value := do
  let token ← current
  match intValue? token.text with
  | some value =>
    advance
    return .int value token.span
  | none =>
    errorAt token.span "integer out of range"
      ("`" ++ token.text ++ "` does not fit a 64-bit integer")
    advance
    return .int 0 token.span

def variableUse (constant : Bool) : Parser Value := do
  let start ← position
  advance
  let name ← name
  if constant then
    errorAt (← spanFrom start) "variable in constant value"
      "variables are not allowed in default values or schema directives"
  return .variable name

def objectField (value : Parser Value) : Parser (Name × Value) := do
  let name ← name
  expect (.mark .colon)
  return (name, ← value)

/-- A value, with `inner` for the values inside it. -/
def valueOf (constant : Bool) (inner : Parser Value) : Parser Value := do
  let token ← current
  let start := token.span.start
  match token.kind with
  | .mark .dollar => variableUse constant
  | .int => int
  | .float =>
    advance
    return .float (.ofLiteral token.text.toList) token.span
  | .string =>
    let text ← stringText
    advance
    return .string text token.span
  | .blockString =>
    advance
    return .string (Text.blockValue token.text) token.span
  | .keyword .trueWord =>
    advance
    return .boolean true (← spanFrom start)
  | .keyword .falseWord =>
    advance
    return .boolean false (← spanFrom start)
  | .keyword .nullWord =>
    advance
    return .null (← spanFrom start)
  | .mark .leftBracket =>
    advance
    let items ← repeatUntil (.mark .rightBracket) inner
    expect (.mark .rightBracket)
    return .list items (← spanFrom start)
  | .mark .leftBrace =>
    advance
    let fields ← repeatUntil (.mark .rightBrace) (objectField inner)
    expect (.mark .rightBrace)
    return .object fields (← spanFrom start)
  | kind =>
    if kind.isName then
      return .enum (← name)
    else
      errorHere "expected value"
      return .null (← spanFrom start)

/-- A value that nests less than `levels` deep. -/
def valueWithin (constant : Bool) : Nat → Parser Value
  | 0 => return .null ⟨0, 0⟩
  | levels + 1 => valueOf constant (valueWithin constant levels)

/-- **A value.** With `constant`, variables are reported. -/
def value (constant : Bool) : Parser Value :=
  fun cursor => valueWithin constant (cursor.ahead.length + 1) cursor

def defaultValue? : Parser (Option Value) := do
  if ← eat (.mark .equals) then
    return some (← value true)
  else
    return none

def typeOf (inner : Parser TypeExpr) : Parser TypeExpr := do
  let start ← position
  let type ←
    if ← eat (.mark .leftBracket) then do
      let inner ← inner
      expect (.mark .rightBracket)
      pure (.list inner (← spanFrom start))
    else
      pure (.named (← name))
  if ← eat (.mark .bang) then
    return .nonNull type (← spanFrom start)
  else
    return type

/-- A type that nests less than `levels` deep. -/
def typeWithin : Nat → Parser TypeExpr
  | 0 => return .named ⟨"", ⟨0, 0⟩⟩
  | levels + 1 => typeOf (typeWithin levels)

def typeExpr : Parser TypeExpr :=
  fun cursor => typeWithin (cursor.ahead.length + 1) cursor

def argument (constant : Bool) : Parser Argument := do
  let start ← position
  let name ← name
  expect (.mark .colon)
  let value ← value constant
  return ⟨name, value, ← spanFrom start⟩

def arguments (constant : Bool) : Parser (List Argument) := do
  if ← eat (.mark .leftParen) then
    let items ← repeatUntil (.mark .rightParen) (argument constant)
    expect (.mark .rightParen)
    return items
  else
    return []

def directive (constant : Bool) : Parser Directive := do
  let start ← position
  advance
  let name ← name
  let arguments ← arguments constant
  return ⟨name, arguments, ← spanFrom start⟩

def directives (constant : Bool) : Parser (List Directive) :=
  whileAt (.mark .atSign) (directive constant)

end GraphClient.Syntax.Parser
