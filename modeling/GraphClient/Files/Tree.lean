import GraphClient.Files.System

/-!
# File trees

A file system in memory. An absolute path starts at its root, any other at its working directory.

* **`StateM FileTree`** is a file system.
-/

namespace GraphClient

/-- What is in a file. -/
inductive FileContents
  | text (value : String)
  | binary (bytes : List UInt8)
deriving DecidableEq

namespace FileContents

def decode? (bytes : List UInt8) : Option String := String.fromUTF8? ⟨bytes.toArray⟩

def text? : FileContents → Option String
  | .text value => some value
  | .binary _ => none

/-- The first line; the rest need not be text. -/
def firstLine? : FileContents → Option String
  | .text value => some (String.ofList (value.toList.takeWhile (· != '\n')))
  | .binary bytes => decode? (bytes.takeWhile (· != 10))

end FileContents

/-- The names that lead from the root to an entry. -/
abbrev Place := List String

/-- An entry of a tree. -/
inductive FileNode
  | directory
  | file (contents : FileContents)
deriving DecidableEq

/-- Directories and files by place. The root is not among them. -/
structure FileTree where
  nodes : List (Place × FileNode) := []
  /-- The working directory. -/
  home : Place := []
deriving DecidableEq

namespace FileTree

/-- The entry at a place. -/
def node? (tree : FileTree) (place : Place) : Option FileNode :=
  if place = [] then some .directory
  else (tree.nodes.find? fun entry => entry.1 == place).map Prod.snd

def hasDirectory (tree : FileTree) (place : Place) : Bool := tree.node? place = some .directory

def contents? (tree : FileTree) (place : Place) : Option FileContents :=
  match tree.node? place with
  | some (.file contents) => some contents
  | _ => none

/-- The tree without the entry of a place. -/
def remove (tree : FileTree) (place : Place) : FileTree :=
  { tree with nodes := tree.nodes.filter fun entry => entry.1 != place }

/-- The tree with an entry at a place. -/
def put (tree : FileTree) (place : Place) (node : FileNode) : FileTree :=
  { tree with nodes := (tree.remove place).nodes ++ [(place, node)] }

def isLongName (name : String) : Bool := Text.byteSize name.toList > 255

/-- Whether no file can have the path: it is longer than 4095 bytes, or one of them is zero. -/
def isUnusable (path : Path) : Bool :=
  Text.byteSize path.text.toList > 4095 || path.text.toList.contains (Char.ofNat 0)

/-- The place that a path starts at. -/
def start (tree : FileTree) (path : Path) : Place := if path.isAbsolute then [] else tree.home

/-- The place that steps from a place lead to. There is no step above the root. -/
def follow (tree : FileTree) : Place → List String → Option Place
  | place, [] => some place
  | place, piece :: rest =>
    if !tree.hasDirectory place then none
    else if Path.isIdle piece then follow tree place rest
    else if piece = ".." then follow tree place.dropLast rest
    else if isLongName piece then none
    else follow tree (place ++ [piece]) rest

/-- **The place that a path leads to.** All but the last step go through directories; the place itself
need not exist. -/
def locate? (tree : FileTree) (path : Path) : Option Place :=
  if path.text = "" || isUnusable path then none else tree.follow (tree.start path) path.pieces

/-- The entry that a path leads to. -/
def entry? (tree : FileTree) (path : Path) : Option FileNode := (tree.locate? path).bind tree.node?

def isFile (tree : FileTree) (path : Path) : Bool :=
  match tree.entry? path with
  | some (.file _) => true
  | _ => false

def isDirectory (tree : FileTree) (path : Path) : Bool := tree.entry? path = some .directory

def read? (tree : FileTree) (path : Path) : Option FileContents :=
  (tree.locate? path).bind tree.contents?

/-- The files below a place, by the names from there. -/
def below (tree : FileTree) (place : Place) : List Place :=
  tree.nodes.filterMap fun (other, node) =>
    match node with
    | .file _ => if place.isPrefixOf other then some (other.drop place.length) else none
    | .directory => none

/-- Those below a directory whose names are all wanted. -/
def filesBelow (tree : FileTree) (path : Path) (wanted : String → Bool) : List Place :=
  match tree.locate? path with
  | some place => (tree.below place).filter fun names => names.all wanted
  | none => []

/-- The tree with a file at a path; the directory has to exist. -/
def write? (tree : FileTree) (path : Path) (contents : FileContents) : Option FileTree := do
  let place ← tree.locate? path
  if tree.hasDirectory place then none else return tree.put place (.file contents)

/-- How an attempt to make a directory ends. -/
inductive MakeResult
  | made (tree : FileTree)
  | noParent
  /-- Something else is in the way, or no directory can have the name. -/
  | taken

/-- Whether a list of steps leads through places that do not exist. -/
def isMissing (tree : FileTree) : Place → List String → Bool
  | place, [] => tree.node? place = none
  | place, piece :: rest =>
    match tree.node? place with
    | none => true
    | some (.file _) => false
    | some .directory =>
      if Path.isIdle piece then isMissing tree place rest
      else if piece = ".." then isMissing tree place.dropLast rest
      else !isLongName piece && isMissing tree (place ++ [piece]) rest

/-- Makes one directory. -/
def makeDirectory (tree : FileTree) (path : Path) : MakeResult :=
  let pieces := (path.pieces.reverse.dropWhile (· = "")).reverse
  if isUnusable path then .taken
  else
    match tree.follow (tree.start path) pieces with
    | some place =>
      if (tree.node? place).isSome then .taken else .made (tree.put place .directory)
    | none => if tree.isMissing (tree.start path) pieces then .noParent else .taken

/-- Makes a directory and those above it. The tree may grow even if that is not possible. -/
def createUpTo : Nat → FileTree → Path → FileTree × Bool
  | 0, tree, _ => (tree, false)
  | steps + 1, tree, path =>
    if path.text = "" then (tree, true)
    else
      match tree.makeDirectory path with
      | .made tree => (tree, true)
      | .taken => (tree, tree.isDirectory path)
      | .noParent =>
        match path.parent with
        | none => (tree, false)
        | some parent =>
          let (tree, done) := createUpTo steps tree parent
          if done then
            match tree.makeDirectory path with
            | .made tree => (tree, true)
            | _ => (tree, tree.isDirectory path)
          else (tree, false)

def createDirectories (tree : FileTree) (path : Path) : FileTree × Bool :=
  createUpTo (path.pieces.length + 1) tree path

/-- The tree without the file of a path. -/
def delete? (tree : FileTree) (path : Path) : Option FileTree := do
  let place ← tree.locate? path
  let _ ← tree.contents? place
  return tree.remove place

/-- A change that may be refused. -/
def change (next : FileTree → Option FileTree) : StateM FileTree Bool := fun tree =>
  match next tree with
  | some next => (true, next)
  | none => (false, tree)

instance : FileSystem (StateM FileTree) where
  isFile path := fun tree => (tree.isFile path, tree)
  isDirectory path := fun tree => (tree.isDirectory path, tree)
  readText path := fun tree => ((tree.read? path).bind FileContents.text?, tree)
  firstLine path := fun tree => ((tree.read? path).bind FileContents.firstLine?, tree)
  filesBelow path wanted := fun tree => (tree.filesBelow path wanted, tree)
  createDirectories path := fun tree =>
    let (tree, done) := tree.createDirectories path
    (done, tree)
  writeText path text := change fun tree => tree.write? path (.text text)
  removeFile path := change fun tree => tree.delete? path

end FileTree

end GraphClient
