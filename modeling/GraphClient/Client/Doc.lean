import GraphClient.Client.Layout
import GraphClient.Directive

/-!
# Comments

Descriptions and deprecations become comments in front of declarations.
-/

namespace GraphClient

/-- What is said about a declaration. -/
structure Doc where
  description : Option String := none
  /-- The reason not to use it any more. -/
  deprecated : Option String := none
deriving DecidableEq

def deprecationReason (uses : List DirectiveUse) : Option String :=
  (DirectiveUse.deprecation? uses).map fun use => use.reason?.getD "No longer supported"

namespace Doc

def ofElement (description : Option String) (directives : List DirectiveUse) : Doc :=
  ⟨description, deprecationReason directives⟩

/-- The lines of a text as comment lines; a blank line keeps only the `bare` mark. -/
def commentLines (bare : String) (text : String) : List Layout :=
  (Text.textLines text).map fun line =>
    .line (if Text.isBlankLine line then bare else bare ++ " " ++ line)

/-- A comment between stars. One line is enough for a description of one line. -/
def starred (doc : Doc) : List Layout :=
  match doc.description, doc.deprecated with
  | none, none => []
  | some text, none =>
    if text.toList.contains '\n' then
      .line "/**" :: commentLines " *" text ++ [.line " */"]
    else [.line ("/** " ++ text ++ " */")]
  | description, some reason =>
    .line "/**" :: (description.map (commentLines " *")).getD [] ++
      [.line (" * @deprecated " ++ reason), .line " */"]

def slashed (doc : Doc) : List Layout :=
  (description doc).elim [] (commentLines "///") ++
  match doc.deprecated with
  | none => []
  | some reason =>
    (if doc.description.isSome then [.line "///"] else []) ++
      [.line ("/// Deprecated: " ++ reason)]

end Doc

end GraphClient
