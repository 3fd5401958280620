import GraphClient.Diagnostic
import GraphClient.Document
import GraphClient.Json
import GraphClient.Text.Lines

/-!
# Reports

Diagnostics are shown as JSON or piece by piece to people. Places without a source are not shown.
-/

namespace GraphClient

def source? (sources : List Source) (id : Nat) : Option Source :=
  sources[id]?.filter fun source => source.id == id

def Label.json? (sources : List Source) (label : Label) : Option Json :=
  (source? sources label.location.source).map fun source =>
    let (line, column) := Text.lineColumn source.text label.location.span.start
    .object [("file", .string source.path), ("line", .nat line), ("column", .nat column),
      ("message", .string label.message)]

def Diagnostic.json (sources : List Source) (diagnostic : Diagnostic) : Json :=
  let message := diagnostic.message.toList.map fun message => ("message", .string message)
  .object ([("severity", .string diagnostic.severity.text), ("code", .string diagnostic.code),
      ("title", .string diagnostic.title)] ++ message ++
    [("labels", .array (diagnostic.labels.filterMap (Label.json? sources)))])

/-- **The JSON document of a run.** It lists files only if there are any. -/
def jsonReport (sources : List Source) (diagnostics : Diagnostics) (files : List String) : Json :=
  let listed := if files.isEmpty then [] else [("files", .array (files.map .string))]
  .object ([("errors", .nat diagnostics.errors.length),
      ("warnings", .nat diagnostics.warnings.length),
      ("diagnostics", .array (diagnostics.map (Diagnostic.json sources)))] ++ listed)

/-- A report for people to read. -/
structure Notice where
  diagnostic : Diagnostic
  source : Option Source
  labels : List Label

def Severity.heading : Severity → String
  | .error => "Error"
  | .warning => "Warning"
  | .info => "Advice"
  | .hint => "Advice"

def Diagnostic.notice (sources : List Source) (diagnostic : Diagnostic) : Notice :=
  match diagnostic.primary.bind fun location => source? sources location.source with
  | some source =>
    ⟨diagnostic, some source,
      diagnostic.labels.filter fun label => label.location.source == source.id⟩
  | none => ⟨diagnostic, none, []⟩

/-- The lines of a notice: a heading, its labels and the message. -/
def Notice.lines (notice : Notice) : List String :=
  let diagnostic := notice.diagnostic
  let labels := notice.source.toList.flatMap fun source => notice.labels.map fun label =>
    let (line, column) := Text.lineColumn source.text label.location.span.start
    "  " ++ source.path ++ ":" ++ toString line ++ ":" ++ toString column ++ ": " ++ label.message
  (diagnostic.severity.heading ++ " [" ++ diagnostic.code ++ "]: " ++ diagnostic.title) ::
    labels ++ diagnostic.message.toList.map fun message => "  help: " ++ message

/-- The notices of a run; a quiet one shows errors only. -/
def notices (sources : List Source) (diagnostics : Diagnostics) (quiet : Bool) : List Notice :=
  (if quiet then diagnostics.errors else diagnostics).map (Diagnostic.notice sources)

def summary? (diagnostics : Diagnostics) (quiet : Bool) : Option String :=
  let errors := diagnostics.errors.length
  let warnings := diagnostics.warnings.length
  if errors > 0 then
    some ("Failed: " ++ toString errors ++ " error(s), " ++ toString warnings ++ " warning(s)")
  else if warnings > 0 && !quiet then some ("Warning: " ++ toString warnings ++ " warning(s)")
  else none

end GraphClient
