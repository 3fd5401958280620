import GraphClient.Files.Glob
import GraphClient.Project.Config

/-!
# Inputs

An input is a file, a directory with documents anywhere below it, or a glob.
-/

namespace GraphClient

def documentPattern : String := "**/*.\x7bgraphql,graphqls,gql\x7d"

/-- The names a search goes through: not the hidden ones. -/
def isVisible (name : String) : Bool := name.toList.head? != some '.'

/-- The directory that a glob starts from and the pattern below it. The steps up to the first one with
a special character make the directory. -/
def splitPattern (path : Path) : Path × String :=
  let steps := path.components.map Component.text
  let plain := steps.takeWhile fun step => !Glob.isPattern step
  let rest := steps.dropWhile fun step => !Glob.isPattern step
  (plain.foldl (fun root step => root.join ⟨step⟩) .empty, "/".intercalate rest)

def compile (pattern : String) : Except ProjectError Glob :=
  match Glob.parse? pattern with
  | some glob => .ok glob
  | none => .error (.invalidGlob pattern)

section

variable {m : Type → Type} [Monad m] [FileSystem m]

/-- The files below a directory that a pattern fits. The empty path is the working directory. -/
def search (root : Path) (glob : Glob) : m (List Path) := do
  let start : Path := if root.text = "" then ⟨"."⟩ else root
  if ← FileSystem.isDirectory start then
    let found ← FileSystem.walk start isVisible
    return (found.map (.ofPieces ·)).filterMap fun file =>
      if glob.accepts file.text then some (root.join file) else none
  else return []

def expandInput (path : Path) : ExceptT ProjectError m (List Path) := do
  if ← FileSystem.isFile path then return [path]
  else if ← FileSystem.isDirectory path then
    match compile documentPattern with
    | .ok glob => search path glob
    | .error cause => throw cause
  else if Glob.isPattern path.text then
    let (root, pattern) := splitPattern path
    match compile pattern with
    | .ok glob =>
      let found ← search root glob
      if found.isEmpty then throw (.missingInput path) else return found
    | .error cause => throw cause
  else throw (.missingInput path)

def expandInto : PathSet → List Path → ExceptT ProjectError m PathSet
  | files, [] => return files
  | files, path :: rest => do expandInto (files.insertAll (← expandInput path)) rest

/-- **The files of paths and patterns.** -/
def expand (paths : List Path) : ExceptT ProjectError m PathSet := expandInto [] paths

def readTexts : List Path → ExceptT ProjectError m (List (String × String))
  | [] => return []
  | path :: rest => do
    match ← FileSystem.readText path with
    | some text => return (path.text, text) :: (← readTexts rest)
    | none => throw (.inaccessible path)

/-- **The texts of the inputs**, numbered in the order of their paths. -/
def loadSources (config : Config) : ExceptT ProjectError m (List Source) := do
  let files ← expand config.inputs
  if files.isEmpty then throw .noInputs
  return Source.number (← readTexts files)

end

end GraphClient
