import GraphClient.Text.CharClass

/-!
# Lines
-/

namespace GraphClient.Text

/-- Puts a character in front of the first piece. -/
def consHead (c : Char) : List (List Char) → List (List Char)
  | [] => [[c]]
  | piece :: pieces => (c :: piece) :: pieces

def splitOn (separator : Char) : List Char → List (List Char)
  | [] => [[]]
  | c :: rest => if c = separator then [] :: splitOn separator rest
    else consHead c (splitOn separator rest)

def dropReturn (line : List Char) : List Char :=
  if line.getLast? = some '\r' then line.dropLast else line

/-- Ends each line but the last; a text that ends in a newline has no last line. -/
def endLines : List (List Char) → List (List Char)
  | [] => []
  | [last] => if last = [] then [] else [last]
  | line :: rest => dropReturn line :: endLines rest

/-- The lines of a text. A newline, with or without a carriage return before it, ends a line. -/
def textLines (text : String) : List String :=
  (endLines (splitOn '\n' text.toList)).map String.ofList

def isBlankLine (line : String) : Bool :=
  line.toList.all isSpace

def bytes (text : String) : List UInt8 :=
  text.toList.flatMap String.utf8EncodeChar

def byteSize (cs : List Char) : Nat :=
  cs.foldr (fun c size => c.utf8Size + size) 0

/-- **Line and column** of a byte offset, both from one. An offset behind the end is the end. -/
def lineColumn (text : String) (offset : Nat) : Nat × Nat :=
  let before := (bytes text).take offset
  (before.count 10 + 1, (before.reverse.takeWhile (· != 10)).length + 1)

end GraphClient.Text
