import GraphClient.TypeRef

/-!
# Lists and nulls in target types
-/

namespace GraphClient.TypeRef

variable {α : Type}

def wrapLevel (nullable : α → α) (isNonNull : Bool) (inner : α) : α :=
  if isNonNull then inner else nullable inner

/-- The lists around a level, whose flags come innermost first. -/
def wrapLists (list nullable : α → α) : (flags : List Bool) → (inner : α) → α
  | [], inner => inner
  | flag :: flags, inner =>
    wrapLists list nullable flags (wrapLevel nullable flag (list inner))

/-- **The representation of a reference** whose name is represented by `inner`. -/
def wrap (list nullable : α → α) (type : TypeRef) (inner : α) : α :=
  match (type.isNonNull :: type.elements).reverse with
  | [] => inner
  | innermost :: flags => wrapLists list nullable flags (wrapLevel nullable innermost inner)

end GraphClient.TypeRef
