import GraphClient.Text.Lines

/-!
# Block strings

The triple-quoted string literals of GraphQL: the indentation that the lines share is not part of
the text, nor are blank lines at either end.
-/

namespace GraphClient.Text

def unescapeTriple : List Char → List Char
  | [] => []
  | '\\' :: '"' :: '"' :: '"' :: rest => '"' :: '"' :: '"' :: unescapeTriple rest
  | c :: rest => c :: unescapeTriple rest

/-- The lines of a body, divided at each newline, carriage return, or both in that order. -/
def splitLines : List Char → List (List Char)
  | [] => [[]]
  | '\r' :: '\n' :: rest => [] :: splitLines rest
  | c :: rest => if c = '\n' ∨ c = '\r' then [] :: splitLines rest
    else consHead c (splitLines rest)

def isIndent (c : Char) : Bool := c == ' ' || c == '\t'

def isIndentOnly (line : List Char) : Bool := line.all isIndent

def commonIndent : List (List Char) → Option Nat
  | [] => none
  | line :: rest =>
    if isIndentOnly line then commonIndent rest
    else
      let own := (line.takeWhile isIndent).length
      match commonIndent rest with
      | some other => some (min own other)
      | none => some own

/-- Cuts the shared indentation from every line but the first. -/
def cutIndent : List (List Char) → List (List Char)
  | [] => []
  | first :: rest =>
    match commonIndent rest with
    | some indent => first :: rest.map (·.drop indent)
    | none => first :: rest

def trimBlankLines (lines : List (List Char)) : List (List Char) :=
  ((lines.dropWhile isIndentOnly).reverse.dropWhile isIndentOnly).reverse

/-- The text between the triple quotes of a literal; a text without both is its own body. -/
def blockBody (raw : List Char) : List Char :=
  match raw with
  | '"' :: '"' :: '"' :: rest =>
    match rest.reverse with
    | '"' :: '"' :: '"' :: body => body.reverse
    | _ => raw
  | _ => raw

/-- **The value of a block string literal**, quotes included in the input. -/
def blockValue (raw : String) : String :=
  let lines := trimBlankLines (cutIndent (splitLines (unescapeTriple (blockBody raw.toList))))
  String.ofList (List.intercalate ['\n'] lines)

end GraphClient.Text
