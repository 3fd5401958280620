import GraphClient.Files.System
import GraphClient.Project.Error

/-!
# Writing clients

A client is written below a directory. Files that already hold the right text stay as they are, and
files of an earlier client that are no longer part of it are removed.
-/

namespace GraphClient

/-- What happened to the files of a client. -/
structure WriteSummary where
  written : List Path
  unchanged : Nat
  removed : List Path
deriving DecidableEq

def targetPath (directory : Path) (file : GeneratedFile) : Path :=
  (Path.mk file.path).pieces.foldl (fun path piece => path.join ⟨piece⟩) directory

def occurs (part : List Char) : List Char → Bool
  | [] => part.isEmpty
  | c :: rest => part.isPrefixOf (c :: rest) || occurs part rest

def isGenerated (firstLine : String) : Bool := occurs generatedMark.toList firstLine.toList

section

variable {m : Type → Type} [Monad m] [FileSystem m]

def pruneFiles (keep : List Path) : List Path → ExceptT ProjectError m (List Path)
  | [] => return []
  | path :: rest => do
    let firstLine ← FileSystem.firstLine path
    if keep.any path.same || !firstLine.any isGenerated then pruneFiles keep rest
    else if ← FileSystem.removeFile path then return path :: (← pruneFiles keep rest)
    else throw (.inaccessible path)

def prune (directory : Path) (keep : List Path) : ExceptT ProjectError m (List Path) := do
  if ← FileSystem.isDirectory directory then
    let found ← FileSystem.walk directory fun _ => true
    let removed ← pruneFiles keep (found.map fun names => directory.join (.ofPieces names))
    return sortBy Path.order removed
  else return []

def writeFile (path : Path) (contents : String) : ExceptT ProjectError m Unit := do
  let ready ← match path.parent with
    | some parent => FileSystem.createDirectories parent
    | none => pure true
  if ready then
    if ← FileSystem.writeText path contents then return ()
  throw (.inaccessible path)

/-- Writes files below a directory, but for those with the same text already. Gives the paths that were
written and the number of the others. -/
def writeFiles (directory : Path) : List GeneratedFile → ExceptT ProjectError m (List Path × Nat)
  | [] => return ([], 0)
  | file :: rest => do
    let path := targetPath directory file
    if (← FileSystem.readText path) = some file.contents then
      let (written, unchanged) ← writeFiles directory rest
      return (written, unchanged + 1)
    else
      writeFile path file.contents
      let (written, unchanged) ← writeFiles directory rest
      return (path :: written, unchanged)

/-- **Writes the files of a client below a directory.** -/
def writeClient (directory : Path) (files : List GeneratedFile) :
    ExceptT ProjectError m WriteSummary := do
  let removed ← prune directory (files.map (targetPath directory))
  let (written, unchanged) ← writeFiles directory files
  return ⟨written, unchanged, removed⟩

end

end GraphClient
