/-!
# Ordered lists

Reports, registries and generated files are kept in an order that does not depend on how they were
put together. Three small containers are enough, all of them plain lists.
-/

namespace GraphClient

variable {α : Type}

/-- Puts `x` in front of the first element that does not come before it. -/
def insertBy (cmp : α → α → Ordering) (x : α) : List α → List α
  | [] => [x]
  | y :: ys => if cmp y x = .lt then y :: insertBy cmp x ys else x :: y :: ys

/-- **Stable sort.** Elements that compare equal keep their order. -/
def sortBy (cmp : α → α → Ordering) (xs : List α) : List α :=
  xs.foldr (insertBy cmp) []

/-- Compares lists of names element by element, a shorter list first. -/
def compareNames : List String → List String → Ordering
  | [], [] => .eq
  | [], _ :: _ => .lt
  | _ :: _, [] => .gt
  | a :: as, b :: bs => (compare a b).then (compareNames as bs)

/-- Entries by name, in the order of names. -/
abbrev NameMap (α : Type) := List (String × α)

namespace NameMap

def find? (entries : NameMap α) (name : String) : Option α :=
  (List.find? (fun entry => entry.1 == name) entries).map Prod.snd

def contains (entries : NameMap α) (name : String) : Bool :=
  (find? entries name).isSome

def values (entries : NameMap α) : List α :=
  entries.map Prod.snd

def names (entries : NameMap α) : List String :=
  entries.map Prod.fst

def insert (name : String) (value : α) : NameMap α → NameMap α
  | [] => [(name, value)]
  | (key, other) :: rest =>
    match compare name key with
    | .lt => (name, value) :: (key, other) :: rest
    | .eq => (name, value) :: rest
    | .gt => (key, other) :: insert name value rest

/-- The map that holds the given entries; a later entry replaces an earlier one. -/
def ofList (entries : List (String × α)) : NameMap α :=
  entries.foldl (fun m entry => insert entry.1 entry.2 m) []

end NameMap

/-- Names in order, none of them twice. -/
abbrev NameSet := List String

namespace NameSet

def insert (name : String) : NameSet → NameSet
  | [] => [name]
  | other :: rest =>
    match compare name other with
    | .lt => name :: other :: rest
    | .eq => other :: rest
    | .gt => other :: insert name rest

def insertAll (names : List String) (set : NameSet) : NameSet :=
  names.foldl (fun s name => insert name s) set

def ofList (names : List String) : NameSet :=
  insertAll names []

end NameSet

end GraphClient
