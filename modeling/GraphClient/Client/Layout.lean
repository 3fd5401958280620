import GraphClient.Text.Lines

/-!
# Layout of code

Generated code is a tree of lines, gaps and indented parts.
-/

namespace GraphClient

def generatedMark : String := "Generated by gqlbind. Do not edit."

/-- Lines with their indentation. -/
inductive Layout
  | line (text : String)
  | gap
  | indented (body : List Layout)

namespace Layout

def block (first last : String) (body : List Layout) : List Layout :=
  [.line first, .indented body, .line last]

def braces (head : String) (body : List Layout) : List Layout :=
  block (head ++ " \x7b") "\x7d" body

def separated : List (List Layout) → List Layout
  | [] => []
  | [part] => part
  | part :: rest => part ++ .gap :: separated rest

/-- A row of the text: a gap, or a line with the number of levels that it is indented by. -/
inductive Row
  | gap
  | text (depth : Nat) (text : String)

mutual

def rows (depth : Nat) : Layout → List Row
  | .line text => [.text depth text]
  | .gap => [.gap]
  | .indented body => rowsOf (depth + 1) body

def rowsOf (depth : Nat) : List Layout → List Row
  | [] => []
  | piece :: rest => rows depth piece ++ rowsOf depth rest

end

/-- How the text so far ends. -/
inductive Ending
  | start
  | line
  | gap
deriving DecidableEq

def Ending.afterLine (ending : Ending) (text : String) : Ending :=
  if text = "" then (if ending = .start then .line else .gap)
  else if text.toList.getLast? = some '\n' then .gap
  else .line

/-- A line with its indentation. Empty lines are not indented. -/
def rowText (unit : String) (depth : Nat) (text : String) : String :=
  if text = "" then "\n" else String.join (List.replicate depth unit) ++ text ++ "\n"

/-- The text of rows behind a text that ends in the given way. -/
def renderRows (unit : String) : Ending → List Row → String
  | _, [] => ""
  | .line, .gap :: rest => "\n" ++ renderRows unit .gap rest
  | ending, .gap :: rest => renderRows unit ending rest
  | ending, .text depth text :: rest =>
    rowText unit depth text ++ renderRows unit (ending.afterLine text) rest

/-- **The text of code**, indented by `unit` at each level. -/
def render (unit : String) (code : List Layout) : String := renderRows unit .start (rowsOf 0 code)

end Layout

end GraphClient
