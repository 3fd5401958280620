import GraphClient.Operation.Bound
import GraphClient.Schema.Printer

/-!
# Printing request documents
-/

namespace GraphClient

namespace Printer

def braced (depth : Nat) (lines : List String) : String :=
  " \x7b\n" ++ String.join (lines.map fun line => indent (depth + 1) ++ line ++ "\n") ++
    indent depth ++ "\x7d"

mutual

def selection (depth : Nat) : BoundSelection → String
  | .field field selections =>
    (match field.label with
      | some label => label ++ ": "
      | none => "") ++
    field.name ++ arguments field.arguments ++ directives field.directives ++
    match selections with
    | [] => ""
    | first :: rest =>
      braced depth (selection (depth + 1) first :: selectionLines (depth + 1) rest)
  | .fragment use selections =>
    match use.fragment with
    | some name => "..." ++ name ++ directives use.directives
    | none =>
      "..." ++
      (match use.condition with
        | some condition => " on " ++ condition
        | none => "") ++
      directives use.directives ++ braced depth (selectionLines (depth + 1) selections)

def selectionLines (depth : Nat) : List BoundSelection → List String
  | [] => []
  | first :: rest => selection depth first :: selectionLines depth rest

end

def selectionSet (selections : List BoundSelection) : String :=
  braced 0 (selectionLines 1 selections)

def variableDefinition (entry : BoundVariable) : String :=
  "$" ++ entry.name ++ ": " ++ entry.type.text ++ defaultValue entry.defaultValue

def operation (operation : BoundOperation) : String :=
  operation.kind.text ++ " " ++ operation.name ++
    parenthesized (operation.parameters.map variableDefinition) ++ directives operation.directives ++
    selectionSet operation.selections

def fragment (fragment : BoundFragment) : String :=
  "fragment " ++ fragment.name ++ " on " ++ fragment.condition ++ directives fragment.directives ++
    selectionSet fragment.selections

end Printer

/-- **The request document**: the operation and every fragment that it uses, by name. -/
def BoundOperation.document (operation : BoundOperation) (fragments : NameMap BoundFragment) :
    String :=
  Printer.sections
    (Printer.operation operation ::
      (operation.fragments.filterMap fragments.find?).map Printer.fragment)

end GraphClient
