import GraphClient.Order

/-!
# JSON
-/

namespace GraphClient

/-- A JSON value. -/
inductive Json
  | null
  | boolean (value : Bool)
  | number (digits : String)
  | string (text : String)
  | array (items : List Json)
  | object (members : List (String × Json))
deriving Inhabited

namespace Json

def nat (n : Nat) : Json := .number (toString n)

def text? : Json → Option String
  | .string text => some text
  | _ => none

def optionalText? : Json → Option (Option String)
  | .null => some none
  | .string text => some (some text)
  | _ => none

/-- The members of an object that may have the given names, each at most once. -/
def namedMembers? (names : List String) (members : List (String × Json)) :
    Option (List (Option Json)) :=
  let given := members.map Prod.fst
  if given.all names.contains && decide given.Nodup then
    some (names.map fun name => (members.find? fun entry => entry.1 == name).map Prod.snd)
  else none

def placedMembers? (names : List String) (items : List Json) : Option (List (Option Json)) :=
  if items.length ≤ names.length then
    some (items.map some ++ List.replicate (names.length - items.length) none)
  else none

/-- **The members of a record**, one for each name: an object has them by name, an array by place. -/
def record? (names : List String) : Json → Option (List (Option Json))
  | .object members => namedMembers? names members
  | .array items => placedMembers? names items
  | _ => none

end Json

end GraphClient
