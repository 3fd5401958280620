import GraphClient.Command.Arguments
import GraphClient.Json.Printer
import GraphClient.Project.Inputs
import GraphClient.Project.Output
import GraphClient.Project.Report

/-!
# Running commands
-/

namespace GraphClient

/-- What a command leaves behind. -/
structure RunResult where
  code : Nat
  output : String
  notices : List Notice := []
  summary : Option String := none

def versionText : String := "gqlbind 0.1.0"

namespace Command

variable (command : Command)

/-- The outcome of a command with diagnostics. In the form for people, `before` is printed first and
`success` last. -/
def report (code : Nat) (sources : List Source) (diagnostics : Diagnostics)
    (files : List String) (before : List String) (success : Option String) : RunResult :=
  match command.format with
  | .json =>
    { code, output := (jsonReport sources diagnostics files).pretty "" ++ "\n" }
  | .human =>
    let last := if command.quiet then [] else success.toList.map fun text => "Success: " ++ text
    { code
      output := String.join ((before ++ last).map fun line => line ++ "\n")
      notices := GraphClient.notices sources diagnostics command.quiet
      summary := summary? diagnostics command.quiet }

def failed (sources : List Source) (analysis : Analysis) : RunResult :=
  command.report 1 sources analysis.diagnostics [] [] none

def checked (sources : List Source) (analysis : Analysis) : RunResult :=
  let diagnostics := analysis.diagnostics
  if diagnostics.hasErrors || (command.strict && !diagnostics.warnings.isEmpty) then
    command.failed sources analysis
  else
    command.report 0 sources diagnostics [] []
      (some (toString sources.length ++ " document(s) checked"))

def writtenText (directory : Path) (summary : WriteSummary) : String :=
  toString summary.written.length ++ " file(s) written to " ++ directory.text ++ " (" ++
    toString summary.unchanged ++ " unchanged, " ++ toString summary.removed.length ++ " removed)"

section

variable {m : Type → Type} [Monad m] [FileSystem m]

def check (config : Config) : ExceptT ProjectError m RunResult := do
  let sources ← loadSources config
  return command.checked sources (analyze sources)

def client (config : Config) (analysis : Analysis) : ExceptT ProjectError m GeneratedClient :=
  match GraphClient.generate analysis config.options config.language with
  | .ok client => return client
  | .error cause => throw (.notGenerated cause)

def write (directory : Path) (sources : List Source) (diagnostics : Diagnostics)
    (client : GeneratedClient) : ExceptT ProjectError m RunResult := do
  let summary ← writeClient directory client.files
  return command.report 0 sources diagnostics (client.files.map GeneratedFile.path) []
    (some (writtenText directory summary))

def list (sources : List Source) (diagnostics : Diagnostics) (client : GeneratedClient) : RunResult :=
  let files := client.files.map GeneratedFile.path
  command.report 0 sources diagnostics files files none

/-- Generates the client of the inputs. Without a directory it can only be listed. -/
def generate (config : Config) : ExceptT ProjectError m RunResult := do
  if config.output.isNone && !command.dryRun then throw .noOutput
  let sources ← loadSources config
  let analysis := analyze sources
  if !analysis.isOk then return command.failed sources analysis
  let client ← client config analysis
  let diagnostics := analysis.diagnostics ++ client.diagnostics
  match config.output with
  | some directory =>
    if command.dryRun then return command.list sources diagnostics client
    else command.write directory sources diagnostics client
  | none => return command.list sources diagnostics client

def printSchema (config : Config) : ExceptT ProjectError m RunResult := do
  let sources ← loadSources config
  let analysis := analyze sources
  if analysis.isOk then return { code := 0, output := analysis.registry.print }
  else return command.failed sources analysis

def configuration : ExceptT ProjectError m Config := do
  return (← Config.discover command.config).apply command.overrides

/-- **Runs a command.** -/
def run : ExceptT ProjectError m RunResult :=
  match command.verb with
  | .check => do command.check (← command.configuration)
  | .generate => do command.generate (← command.configuration)
  | .printSchema => do command.printSchema (← command.configuration)
  | .version => return { code := 0, output := versionText ++ "\n" }

end

end Command

end GraphClient
