import GraphClient.Client.Generate
import GraphClient.Files.Path

/-!
# Failed runs
-/

namespace GraphClient

def configName : String := "gqlbind.json"

/-- Why a run ends early. -/
inductive ProjectError
  | inaccessible (path : Path)
  | invalidConfig (path : Path)
  /-- An input is no file and no directory, or a pattern that fits nothing. -/
  | missingInput (path : Path)
  | invalidGlob (pattern : String)
  | noInputs
  | noOutput
  | notGenerated (cause : GenerateError)

def ProjectError.message : ProjectError → String
  | .inaccessible path => "cannot access " ++ ticked path.text
  | .invalidConfig path => "invalid config file " ++ ticked path.text
  | .missingInput path => "input " ++ ticked path.text ++ " does not exist or matches no files"
  | .invalidGlob pattern => "invalid glob " ++ ticked pattern
  | .noInputs => "no GraphQL documents found; pass paths or set `schema` in " ++ configName
  | .noOutput => "no output directory; pass `--output` or set `output` in " ++ configName
  | .notGenerated cause => cause.message

end GraphClient
