/-!
# Target languages
-/

namespace GraphClient

/-- The languages of clients. -/
inductive Language
  | typeScript
  | rust
  | kotlin
deriving DecidableEq

namespace Language

def text : Language → String
  | .typeScript => "typescript"
  | .rust => "rust"
  | .kotlin => "kotlin"

def aliases : Language → List String
  | .typeScript => ["typescript", "ts"]
  | .rust => ["rust", "rs"]
  | .kotlin => ["kotlin", "kt"]

def all : List Language := [.typeScript, .rust, .kotlin]

/-- The language of a name. Only the letters of the alphabet have two cases. -/
def ofText? (name : String) : Option Language :=
  let lowered := String.ofList (name.toList.map Char.toLower)
  all.find? fun language => language.aliases.contains lowered

end Language

end GraphClient
