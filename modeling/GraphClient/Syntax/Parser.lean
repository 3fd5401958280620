import GraphClient.Diagnostic
import GraphClient.Token

/-!
# Parsers

A parser reads tokens and reports problems; it never gives up. What it reports is part of its
result, so that a parser without diagnostics can be told from one that went on after an error.
-/

namespace GraphClient.Syntax

/-- A place in a text. -/
structure Cursor where
  source : Nat
  current : Token
  ahead : List Token

/-- What a parser gives, where it stops and what it reports. -/
structure Outcome (α : Type) where
  value : α
  cursor : Cursor
  diagnostics : Diagnostics

def Parser (α : Type) : Type := Cursor → Outcome α

def unreadable (source : Nat) (token : Token) : Diagnostic :=
  .error .invalidSyntax "unrecognized token" ⟨source, token.span⟩
    ("cannot tokenize `" ++ token.text ++ "`")

/-- The first readable token of a list, with a report for each one before it. -/
def Cursor.skip (source : Nat) (last : Token) : List Token → Cursor × Diagnostics
  | [] => (⟨source, last, []⟩, [])
  | token :: rest =>
    if token.kind = .error then
      let (cursor, diagnostics) := Cursor.skip source last rest
      (cursor, unreadable source token :: diagnostics)
    else (⟨source, token, rest⟩, [])

namespace Parser

variable {α β : Type}

instance : Monad Parser where
  pure a := fun cur => ⟨a, cur, []⟩
  bind p f := fun cur =>
    let first := p cur
    let second := f first.value first.cursor
    ⟨second.value, second.cursor, first.diagnostics ++ second.diagnostics⟩

def current : Parser Token := fun cursor => ⟨cursor.current, cursor, []⟩

def kind : Parser TokenKind := fun cursor => ⟨cursor.current.kind, cursor, []⟩

def position : Parser Nat := fun cursor => ⟨cursor.current.span.start, cursor, []⟩

def atKind (kind : TokenKind) : Parser Bool :=
  fun cursor => ⟨cursor.current.kind == kind, cursor, []⟩

def atName : Parser Bool := fun cursor => ⟨cursor.current.kind.isName, cursor, []⟩

def spanFrom (start : Nat) : Parser Span :=
  fun cursor => ⟨⟨start, max cursor.current.span.start start⟩, cursor, []⟩

/-- Moves to the next token. The end of the text is never passed. -/
def advance : Parser Unit := fun cursor =>
  let (next, diagnostics) := Cursor.skip cursor.source cursor.current cursor.ahead
  ⟨(), next, diagnostics⟩

def errorAt (span : Span) (title message : String) : Parser Unit := fun cursor =>
  ⟨(), cursor, [.error .invalidSyntax title ⟨cursor.source, span⟩ message]⟩

def errorHere (message : String) : Parser Unit := fun cursor =>
  let token := cursor.current
  let code := if token.kind = .eof then .unexpectedEnd else .invalidSyntax
  ⟨(), cursor,
    [.error code message ⟨cursor.source, token.span⟩ (message ++ ", found " ++ token.kind.text)]⟩

def errorExpected (kind : TokenKind) : Parser Unit := fun cursor =>
  let token := cursor.current
  let code := if token.kind = .eof then .unexpectedEnd else .unexpectedToken
  ⟨(), cursor,
    [.error code "unexpected token" ⟨cursor.source, token.span⟩
      ("expected " ++ kind.text ++ ", found " ++ token.kind.text)]⟩

def eat (kind : TokenKind) : Parser Bool := do
  if ← atKind kind then
    advance
    return true
  else
    return false

def expect (kind : TokenKind) : Parser Unit := do
  if ← atKind kind then advance else errorExpected kind

/-- Takes one token if nothing was taken since `before`. -/
def bumpIfStuck (before : Nat) : Parser Unit := do
  let token ← current
  if token.span.start == before && token.kind != .eof then advance

/-- **A round of a loop**, if the kind of the current token satisfies `goes`, and `again` behind it. -/
def loopOf (goes : TokenKind → Bool) (body : Parser α) (again : Parser (List α)) : Parser (List α) := do
  if goes (← kind) then
    let first ← body
    let rest ← again
    return first :: rest
  else
    return []

def loopWithin (goes : TokenKind → Bool) (body : Parser α) : Nat → Parser (List α)
  | 0 => return []
  | rounds + 1 => loopOf goes body (loopWithin goes body rounds)

/-- Repeats `body`. Each round takes a token, so there are no more rounds than tokens. -/
def loop (goes : TokenKind → Bool) (body : Parser α) : Parser (List α) :=
  fun cursor => loopWithin goes body cursor.ahead.length cursor

/-- A round that takes a token, whatever `body` does. -/
def round (body : Parser α) : Parser α := do
  let before ← position
  let item ← body
  bumpIfStuck before
  return item

/-- **Repeats `body`** up to a token of kind `stop` or the end of the text. -/
def repeatUntil (stop : TokenKind) (body : Parser α) : Parser (List α) :=
  loop (fun kind => kind != stop && kind != .eof) (round body)

/-- Items as long as the current token is of kind `start`. The item takes that token. -/
def whileAt (start : TokenKind) (item : Parser α) : Parser (List α) := loop (· == start) item

/-- One or more items divided by tokens of kind `separator`, which may also stand in front. -/
def separatedBy (separator : TokenKind) (item : Parser α) : Parser (List α) := do
  let _ ← eat separator
  let first ← item
  let rest ← whileAt separator (do advance; item)
  return first :: rest

def skipTo (stop : TokenKind → Bool) : Parser Unit := do
  let _ ← loop (fun kind => !stop kind) advance

end Parser

end GraphClient.Syntax
