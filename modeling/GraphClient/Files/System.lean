import GraphClient.Files.Path

/-!
# File systems

What a run needs of the files around it. Programs over this interface run on the files of a machine
as well as on a tree in memory.
-/

namespace GraphClient

/-- Computations that read and write files. -/
class FileSystem (m : Type → Type) where
  isFile : Path → m Bool
  isDirectory : Path → m Bool
  readText : Path → m (Option String)
  /-- The first line of a file; none if it cannot be read as text. -/
  firstLine : Path → m (Option String)
  /-- The files below a directory, each by the names that lead to it. Only entries with a name that is
  `wanted` are looked at. -/
  filesBelow (directory : Path) (wanted : String → Bool) : m (List (List String))
  /-- Makes a directory and those above it; false if that is not possible. -/
  createDirectories : Path → m Bool
  writeText : Path → String → m Bool
  removeFile : Path → m Bool

/-- Computations that can fail have the files of those that cannot. -/
instance {ε : Type} {m : Type → Type} [Monad m] [FileSystem m] : FileSystem (ExceptT ε m) where
  isFile path := ExceptT.lift (FileSystem.isFile path)
  isDirectory path := ExceptT.lift (FileSystem.isDirectory path)
  readText path := ExceptT.lift (FileSystem.readText path)
  firstLine path := ExceptT.lift (FileSystem.firstLine path)
  filesBelow directory wanted := ExceptT.lift (FileSystem.filesBelow directory wanted)
  createDirectories path := ExceptT.lift (FileSystem.createDirectories path)
  writeText path text := ExceptT.lift (FileSystem.writeText path text)
  removeFile path := ExceptT.lift (FileSystem.removeFile path)

/-- The files below a directory that a run goes through. A dash alone, however it is spelled, stands
for what is typed in and has no files below it; behind another step it is a name like any other. -/
def FileSystem.walk {m : Type → Type} [Monad m] [FileSystem m] (directory : Path)
    (wanted : String → Bool) : m (List (List String)) :=
  if directory.same ⟨"-"⟩ then return [] else FileSystem.filesBelow directory wanted

end GraphClient
