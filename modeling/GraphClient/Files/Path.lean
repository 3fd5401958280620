import GraphClient.Text.Lines

/-!
# Paths

A path is kept as it was spelled. Two spellings are the same path when they have the same components.
-/

namespace GraphClient

/-- A path as it is spelled. -/
structure Path where
  text : String
deriving DecidableEq

/-- A step of a path. -/
inductive Component
  | root
  | here
  | up
  | name (text : String)
deriving DecidableEq

namespace Component

def text : Component → String
  | .root => "/"
  | .here => "."
  | .up => ".."
  | .name text => text

def rank : Component → Nat
  | .root => 0
  | .here => 1
  | .up => 2
  | .name _ => 3

def order (a b : Component) : Ordering := (compare a.rank b.rank).then (compare a.text b.text)

/-- The step that a piece of a path stands for; empty pieces and inner dots stand for none. -/
def ofPiece? : String → Option Component
  | "" => none
  | "." => none
  | ".." => some .up
  | piece => some (.name piece)

end Component

namespace Path

def empty : Path := ⟨""⟩

def pieces (path : Path) : List String :=
  (Text.splitOn '/' path.text.toList).map String.ofList

def isAbsolute (path : Path) : Bool := path.text.toList.head? = some '/'

def endsInSlash (path : Path) : Bool := path.text.toList.getLast? = some '/'

/-- **The steps of a path.** A dot counts at the front only. -/
def components (path : Path) : List Component :=
  let front := if path.isAbsolute then [.root]
    else if path.pieces.head? = some "." then [.here]
    else []
  front ++ path.pieces.filterMap Component.ofPiece?

/-- Compares lists of steps one by one, a shorter list first. -/
def orderSteps : List Component → List Component → Ordering
  | [], [] => .eq
  | [], _ :: _ => .lt
  | _ :: _, [] => .gt
  | a :: as, b :: bs => (a.order b).then (orderSteps as bs)

def order (a b : Path) : Ordering := orderSteps a.components b.components

def same (a b : Path) : Bool := a.components = b.components

/-- The path `inner`, seen from `path`. -/
def join (path inner : Path) : Path :=
  if inner.isAbsolute || path.text = "" then inner
  else if path.endsInSlash then ⟨path.text ++ inner.text⟩
  else ⟨path.text ++ "/" ++ inner.text⟩

def ofPieces (pieces : List String) : Path := ⟨"/".intercalate pieces⟩

/-- Whether a piece takes no step of its own behind others. -/
def isIdle (piece : String) : Bool := piece = "" || piece = "."

/-- Drops the pieces at the end that take no step; the first piece stays. -/
def trimEnd : List String → List String
  | [] => []
  | first :: rest => first :: (rest.reverse.dropWhile isIdle).reverse

/-- The path without its last step; what has no last step has no parent. -/
def parent (path : Path) : Option Path :=
  match trimEnd path.pieces with
  | [] => none
  | [only] => if only = "" then none else some empty
  | pieces =>
    let rest := trimEnd pieces.dropLast
    if rest = [""] then some ⟨"/"⟩ else some (ofPieces rest)

end Path

/-- Paths in order, none of them twice. -/
abbrev PathSet := List Path

namespace PathSet

def insert (path : Path) : PathSet → PathSet
  | [] => [path]
  | other :: rest =>
    match path.order other with
    | .lt => path :: other :: rest
    | .eq => other :: rest
    | .gt => other :: insert path rest

def insertAll (paths : List Path) (set : PathSet) : PathSet :=
  paths.foldl (fun set path => insert path set) set

end PathSet

end GraphClient
