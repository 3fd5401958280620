import GraphClient.Client.Doc
import GraphClient.Client.Wrap

/-!
# Rust modules

A generated Rust file as a list of declarations, and its text.
-/

namespace GraphClient.Rust

/-- The words that have to be raw identifiers. -/
def keywords : List String :=
  ["as", "async", "await", "box", "break", "const", "continue", "dyn", "else", "enum", "extern",
    "false", "fn", "for", "if", "impl", "in", "let", "loop", "match", "mod", "move", "mut", "pub",
    "ref", "return", "static", "struct", "trait", "true", "try", "type", "unsafe", "use", "where",
    "while", "yield"]

/-- The words that not even a raw identifier can spell. -/
def pathWords : List String := ["self", "Self", "super", "crate"]

/-- The identifier of a name. -/
def identifier (name : String) : String :=
  if pathWords.contains name then name ++ "_"
  else if keywords.contains name then "r#" ++ name
  else name

/-- An identifier without the marks of a raw one. -/
def unraw : List Char → List Char
  | 'r' :: '#' :: rest => unraw rest
  | cs => cs

/-- Whether a name is sent under another one. -/
def needsRename (identifier wire : String) : Bool :=
  String.ofList (unraw identifier.toList) != wire

/-- A type of Rust. -/
inductive TypeExpr
  | named (name : String)
  | vec (element : TypeExpr)
  | option (inner : TypeExpr)
  | boxed (inner : TypeExpr)

namespace TypeExpr

/-- A type as it is written. -/
def text : TypeExpr → String
  | .named name => name
  | .vec element => "Vec<" ++ element.text ++ ">"
  | .option inner => "Option<" ++ inner.text ++ ">"
  | .boxed inner => "Box<" ++ inner.text ++ ">"

/-- The type of values of a reference. -/
def wrap (type : TypeRef) (inner : TypeExpr) : TypeExpr := type.wrap .vec .option inner

end TypeExpr

/-- A field of a struct. -/
structure Field where
  doc : Doc := {}
  name : String
  wire : String
  mark : Option String := none
  type : TypeExpr

/-- A variant of an enum. -/
structure Variant where
  doc : Doc := {}
  name : String
  wire : String
  payload : Option String := none

/-- A field of an input, with what its builder needs. -/
structure InputField where
  name : String
  /-- The name in words, for the method that sets the field. -/
  words : String
  isRequired : Bool
  type : TypeExpr

/-- A declaration of a file. -/
inductive Item
  | alias (doc : Doc) (name target : String)
  /-- A struct around one value, with functions that read and write it. -/
  | wrapper (doc : Doc) (name target : String) (serializer deserializer : Option String)
  | struct (doc : Doc) (derive name : String) (fields : List Field)
  | enum (doc : Doc) (attributes : List String) (name : String) (variants : List Variant)
  | inputMethods (name : String) (fields : List InputField)
  | constant (name value : String)
  | request (words operation document parameters : String)
  | responseDecoder (words operation root : String)

/-- The traits of structs. -/
def deriveRecord : String := "#[derive(Debug, Clone, Serialize, Deserialize)]"

/-- The traits of variables. -/
def deriveVariables : String := "#[derive(Debug, Clone, Serialize)]"

/-- The traits of enums. -/
def deriveEnum : String :=
  "#[derive(Debug, Clone, Copy, PartialEq, Eq, Hash, PartialOrd, Ord, Serialize, Deserialize)]"

namespace Item

open Layout (braces)

/-- The line that gives a name on the wire. -/
def renameLines (name wire : String) : List Layout :=
  if needsRename name wire then [.line ("#[serde(rename = \"" ++ wire ++ "\")]")] else []

/-- The lines of a field. -/
def fieldLines (field : Field) : List Layout :=
  field.doc.slashed ++ renameLines field.name field.wire ++
    (field.mark.toList.map .line) ++
    [.line ("pub " ++ field.name ++ ": " ++ field.type.text ++ ",")]

/-- The lines of a variant. -/
def variantLines (entry : Variant) : List Layout :=
  entry.doc.slashed ++ renameLines entry.name entry.wire ++
    [.line (match entry.payload with
      | some type => entry.name ++ "(" ++ type ++ "),"
      | none => entry.name ++ ",")]

/-- A body between braces, which stand on one line when there is nothing in between. -/
def body (head : String) (lines : List Layout) : List Layout :=
  if lines.isEmpty then [.line (head ++ " \x7b\x7d")] else braces head lines

/-- The function that writes a wrapped value. -/
def serializeLines (serializer : Option String) : List Layout :=
  braces ("fn serialize<S: serde::Serializer>(&self, serializer: S) " ++
      "-> Result<S::Ok, S::Error>")
    [.line (match serializer with
      | some hook => hook ++ "(&self.0, serializer)"
      | none => "serde::Serialize::serialize(&self.0, serializer)")]

/-- The function that reads one. -/
def deserializeLines (target : String) (deserializer : Option String) : List Layout :=
  braces ("fn deserialize<D: serde::Deserializer<'de>>(deserializer: D) " ++
      "-> Result<Self, D::Error>")
    [.line (match deserializer with
      | some hook => hook ++ "(deserializer).map(Self)"
      | none => "<" ++ target ++ " as serde::Deserialize>::deserialize(deserializer).map(Self)")]

/-- The functions that build an input: one from the required fields, and one for each other field. -/
def inputMethodLines (fields : List InputField) : List Layout :=
  let required := fields.filter InputField.isRequired
  let optional := fields.filter fun field => !field.isRequired
  Layout.separated (
    (.line "/// Starts a value from the required fields; optional fields are unset." ::
        .line "#[must_use]" ::
        braces ("pub fn new(" ++ String.intercalate ", " (required.map fun field =>
            field.name ++ ": " ++ field.type.text) ++ ") -> Self")
          (braces "Self" (fields.map fun field =>
            .line (if field.isRequired then field.name ++ "," else field.name ++ ": None,")))) ::
      optional.map fun field =>
        .line "#[must_use]" ::
          braces ("pub fn with_" ++ field.words ++ "(mut self, value: " ++ field.type.text ++
              ") -> Self")
            [.line ("self." ++ field.name ++ " = Some(value);"), .line "self"])

/-- The lines of a declaration. -/
def code : Item → List Layout
  | .alias doc name target =>
    doc.slashed ++ [.line ("pub type " ++ name ++ " = " ++ target ++ ";")]
  | .wrapper doc name target serializer deserializer =>
    doc.slashed ++ Layout.separated
      [[.line "#[derive(Debug, Clone)]",
          .line ("pub struct " ++ name ++ "(pub " ++ target ++ ");")],
        braces ("impl serde::Serialize for " ++ name) (serializeLines serializer),
        braces ("impl<'de> serde::Deserialize<'de> for " ++ name)
          (deserializeLines target deserializer)]
  | .struct doc derive name fields =>
    doc.slashed ++ .line derive :: body ("pub struct " ++ name) (fields.flatMap fieldLines)
  | .enum doc attributes name variants =>
    doc.slashed ++ attributes.map .line ++
      body ("pub enum " ++ name) (variants.flatMap variantLines)
  | .inputMethods name fields => braces ("impl " ++ name) (inputMethodLines fields)
  | .constant name value => [.line ("pub const " ++ name ++ ": &str = " ++ value ++ ";")]
  | .request words operation document parameters =>
    braces ("pub fn " ++ words ++ "_request(variables: " ++ parameters ++ ") -> GraphQLRequest<" ++
        parameters ++ ">")
      [.line ("GraphQLRequest::new(\"" ++ operation ++ "\", " ++ document ++ ", variables)")]
  | .responseDecoder words operation root =>
    .line ("/// Decodes the `data` member of a `" ++ operation ++ "` response.") ::
      braces ("pub fn decode_" ++ words ++ "(data: serde_json::Value) -> Result<" ++ root ++
          ", ShapeMismatchError>")
        [.line "serde_json::from_value(data).map_err(ShapeMismatchError::from)"]

end Item

/-- The first line of every file. -/
def header : String := "//! " ++ generatedMark

/-- A generated file: the lines that bring names into scope, and the declarations. -/
structure Module where
  uses : List String
  items : List Item

/-- The text of a file. -/
def Module.text (file : Module) : String :=
  Layout.render "    " (.line header :: .gap :: file.uses.map .line ++ .gap ::
    Layout.separated (file.items.map Item.code))

end GraphClient.Rust
