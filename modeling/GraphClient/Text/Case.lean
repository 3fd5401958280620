import GraphClient.Text.Lines

/-!
# Letter case of identifiers
-/

namespace GraphClient.Text

/-- Raises the first letter; the others are lowered when `lowerRest` holds. -/
def capitalize (lowerRest : Bool) : List Char → List Char
  | [] => []
  | c :: rest => c.toUpper :: if lowerRest then rest.map Char.toLower else rest

/-- Words joined with raised first letters. A name without lower-case letters is lowered first. -/
def pascalChars (name : List Char) : List Char :=
  (splitOn '_' name).flatMap (capitalize (name.all fun c => !c.isLower))

/-- `bestFriend` and `best_friend` become `BestFriend`, `SUPER_USER` becomes `SuperUser`. -/
def pascalCase (name : String) : String :=
  String.ofList (pascalChars name.toList)

/-- `GetUser` becomes `getUser`. -/
def camelCase (name : String) : String :=
  match pascalChars name.toList with
  | [] => ""
  | c :: rest => String.ofList (c.toLower :: rest)

/-- Whether a capital starts a new word, given its neighbours. -/
def startsWord (before after : Option Char) : Bool :=
  match before with
  | some p =>
    if p.isLower || p.isDigit then true
    else p.isUpper && (after.map Char.isLower).getD false
  | none => false

/-- Lowers the capitals, with an underscore in front of those that start a word. -/
def snakeChars (before : Option Char) : List Char → List Char
  | [] => []
  | c :: rest =>
    if c.isUpper then
      let lowered := c.toLower :: snakeChars (some c) rest
      if startsWord before rest.head? then '_' :: lowered else lowered
    else c :: snakeChars (some c) rest

/-- `bestFriend` becomes `best_friend`, `HTTPServer` becomes `http_server`. -/
def snakeCase (name : String) : String :=
  String.ofList (snakeChars none name.toList)

/-- `GetUser` becomes `GET_USER`. -/
def screamingCase (name : String) : String :=
  String.ofList ((snakeChars none name.toList).map Char.toUpper)

end GraphClient.Text
