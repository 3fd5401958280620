import GraphClient.Order
import GraphClient.Position

/-!
# Diagnostics

Every stage reports problems as a list of diagnostics and goes on.
-/

namespace GraphClient

/-- How serious a diagnostic is. Only errors stop generation. -/
inductive Severity
  | error
  | warning
  | info
  | hint
deriving DecidableEq

def Severity.text : Severity → String
  | .error => "error"
  | .warning => "warning"
  | .info => "info"
  | .hint => "hint"

/-- A place with what there is to say about it. -/
structure Label where
  location : Location
  message : String
deriving DecidableEq

/-- A report. -/
structure Diagnostic where
  severity : Severity
  code : String
  title : String
  message : Option String
  labels : List Label
deriving DecidableEq

/-- The codes of reports. -/
inductive Code
  | unexpectedToken
  | unexpectedEnd
  | invalidSyntax
  | unknownType
  | unknownField
  | duplicateType
  | duplicateField
  | duplicateName
  | kindMismatch
  | registryFrozen
  | reservedName
  | emptyDefinition
  | conformance
  | unknownDirective
  | directiveLocation
  | repeatedDirective
  | unknownArgument
  | missingArgument
  | invalidValue
  | undefinedVariable
  | variableMismatch
  | unknownFragment
  | fragmentCondition
  | fragmentCycle
  | selectionShape
  | fieldConflict
  | missingRoot
  | anonymousOperation
  | unusedFragment
  | unusedVariable
  | deprecatedUsage
  | unmappedScalar
deriving DecidableEq

def Code.text : Code → String
  | .unexpectedToken => "E0001"
  | .unexpectedEnd => "E0002"
  | .invalidSyntax => "E0003"
  | .unknownType => "E0010"
  | .unknownField => "E0011"
  | .duplicateType => "E0012"
  | .duplicateField => "E0013"
  | .duplicateName => "E0014"
  | .kindMismatch => "E0015"
  | .registryFrozen => "E0016"
  | .reservedName => "E0017"
  | .emptyDefinition => "E0018"
  | .conformance => "E0020"
  | .unknownDirective => "E0030"
  | .directiveLocation => "E0031"
  | .repeatedDirective => "E0032"
  | .unknownArgument => "E0040"
  | .missingArgument => "E0041"
  | .invalidValue => "E0042"
  | .undefinedVariable => "E0043"
  | .variableMismatch => "E0044"
  | .unknownFragment => "E0045"
  | .fragmentCondition => "E0046"
  | .fragmentCycle => "E0047"
  | .selectionShape => "E0048"
  | .fieldConflict => "E0049"
  | .missingRoot => "E0050"
  | .anonymousOperation => "E0051"
  | .unusedFragment => "W0001"
  | .unusedVariable => "W0002"
  | .deprecatedUsage => "W0003"
  | .unmappedScalar => "W0004"

def ticked (name : String) : String := "`" ++ name ++ "`"

namespace Diagnostic

def error (code : Code) (title : String) (location : Location) (message : String) : Diagnostic :=
  ⟨.error, code.text, title, none, [⟨location, message⟩]⟩

def warning (code : Code) (title : String) (location : Location) (message : String) : Diagnostic :=
  ⟨.warning, code.text, title, none, [⟨location, message⟩]⟩

def isFatal (d : Diagnostic) : Bool := d.severity == .error

def primary (d : Diagnostic) : Option Location := d.labels.head?.map Label.location

/-- The text behind the title: the message, or else that of the first label. -/
def detail (d : Diagnostic) : Option String :=
  d.message.or (d.labels.head?.map Label.message)

/-- One line: code, title and the detail unless it is empty. -/
def text (d : Diagnostic) : String :=
  let head := "[" ++ d.code ++ "] " ++ d.title
  match d.detail with
  | some detail => if detail = "" then head else head ++ ": " ++ detail
  | none => head

/-- Reports are ordered by place, then code, then title. -/
def order (a b : Diagnostic) : Ordering :=
  ((Location.compareOptional a.primary b.primary).then (compare a.code b.code)).then
    (compare a.title b.title)

end Diagnostic

/-- Reports in the order in which they are made. -/
abbrev Diagnostics := List Diagnostic

namespace Diagnostics

def hasErrors (ds : Diagnostics) : Bool := ds.any Diagnostic.isFatal

def errors (ds : Diagnostics) : Diagnostics := ds.filter Diagnostic.isFatal

def warnings (ds : Diagnostics) : Diagnostics := ds.filter fun d => d.severity == .warning

def withCode (ds : Diagnostics) (code : String) : Diagnostics := ds.filter fun d => d.code == code

def sorted (ds : Diagnostics) : Diagnostics := sortBy Diagnostic.order ds

end Diagnostics

end GraphClient
