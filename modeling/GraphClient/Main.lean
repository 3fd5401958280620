import GraphClient.Command.Run

/-!
# The command line
-/

namespace GraphClient

def orElse {α : Type} (other : α) (action : IO α) : IO α :=
  try action catch _ => pure other

def succeeds (action : IO Unit) : IO Bool :=
  orElse false do
    action
    return true

def fileType (path : Path) : IO IO.FS.FileType := do
  let place ← IO.FS.realPath path.text
  return (← place.metadata).type

/-- The files below a directory. Links to directories are not followed. -/
partial def listFiles (directory : Path) (wanted : String → Bool) : IO (List (List String)) := do
  let place ← IO.FS.realPath directory.text
  let mut found := []
  for entry in ← place.readDir do
    if wanted entry.fileName then
      let kind := (← entry.path.symlinkMetadata).type
      if kind == .dir then
        let inner ← listFiles (directory.join ⟨entry.fileName⟩) wanted
        found := found ++ inner.map (entry.fileName :: ·)
      else if kind == .file then
        found := found ++ [[entry.fileName]]
  return found

instance : FileSystem IO where
  isFile path := orElse false do return (← fileType path) == .file
  isDirectory path := orElse false do return (← fileType path) == .dir
  readText path := orElse none do return some (← IO.FS.readFile path.text)
  firstLine path := orElse none do
    let ha ← IO.FS.Handle.mk path.text .read
    return some (← ha.getLine)
  filesBelow directory wanted := orElse [] (listFiles directory wanted)
  createDirectories path :=
    if path.text = "" then pure true else succeeds (IO.FS.createDirAll path.text)
  writeText path text := succeeds (IO.FS.writeFile path.text text)
  removeFile path := succeeds (IO.FS.removeFile path.text)

def usage : List String :=
  ["Usage: gqlbind [OPTIONS] <COMMAND>", "",
    "Commands:",
    "  check [--strict] [PATHS]...",
    "  generate [-t TARGET] [-p PACKAGE] [-o OUTPUT] [--dry-run] [PATHS]...",
    "  print-schema [PATHS]...",
    "  version", "",
    "Options:",
    "  -v, --verbose",
    "  -q, --quiet",
    "  -c, --config <CONFIG>",
    "      --format <human|json>",
    "  -h, --help",
    "  -V, --version"]

def refuse (refusal : Refusal) : IO UInt32 := do
  match refusal with
  | .help => usage.forM IO.println
  | .version => IO.println versionText
  | .malformed => usage.forM IO.eprintln
  return refusal.exitCode.toUInt32

def RunResult.display (result : RunResult) : IO UInt32 := do
  result.notices.forM fun notice => notice.lines.forM IO.eprintln
  result.summary.forM IO.eprintln
  IO.print result.output
  return result.code.toUInt32

def runArguments (arguments : List String) : IO UInt32 := do
  match Command.parse arguments with
  | .error refusal => refuse refusal
  | .ok command =>
    match ← (command.run : ExceptT ProjectError IO RunResult).run with
    | .ok result => result.display
    | .error cause =>
      IO.eprintln ("Error: " ++ cause.message)
      return 2

end GraphClient

/-- Runs the command of the arguments. -/
def main (arguments : List String) : IO UInt32 := GraphClient.runArguments arguments
