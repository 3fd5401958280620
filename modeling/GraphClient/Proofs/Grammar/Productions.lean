import GraphClient.Proofs.Grammar.Rule
import GraphClient.Syntax.Literals

/-!
# The grammar of documents

The productions of GraphQL documents, each with the tree that it is read as. Bodies, argument lists and variable
lists may be empty, and an extension may have nothing behind its name. A type without a body is not followed by a
brace: the brace would open its body.
-/

namespace GraphClient.Syntax.Grammar

open Rule

/-- A name. Keywords are names, too. -/
def name : Rule Name := one fun token name => token.kind.isName ∧ name = ⟨token.text, token.span⟩

def nameExcept (kinds : List TokenKind) : Rule Name := one fun token name =>
  token.kind.isName ∧ token.kind ∉ kinds ∧ name = ⟨token.text, token.span⟩

inductive Denotes (token : Token) : String → Prop
  | string {text : String} (hkind : token.kind = .string) (htext : Text.stringValue token.text = .ok text) :
    Denotes token text
  | block (hkind : token.kind = .blockString) : Denotes token (Text.blockValue token.text)

/-- The description in front of a definition. -/
def description : Rule Description := one fun token description =>
  Denotes token description.text ∧ description.span = token.span

/-- What may carry a description. It starts there. -/
def described {α : Type} (rest : Nat → Option Description → Rule α) : Rule α := do
  let start ← offset
  rest start (← optional description)

/-- The keywords that are values of their own. -/
def reserved : List TokenKind := [.keyword .trueWord, .keyword .falseWord, .keyword .nullWord]

inductive Literal (token : Token) : Value → Prop
  | int {value : Int} (hkind : token.kind = .int) (hvalue : Parser.intValue? token.text = some value) :
    Literal token (.int value token.span)
  | float (hkind : token.kind = .float) :
    Literal token (.float (.ofLiteral token.text.toList) token.span)
  | string {text : String} (htext : Denotes token text) : Literal token (.string text token.span)
  | enum (hkind : token.kind.isName) (hreserved : token.kind ∉ reserved) :
    Literal token (.enum ⟨token.text, token.span⟩)

def wordValue (word : Keyword) (make : Span → Value) : Rule Value := do
  let start ← offset
  keyword word
  return make (← spanFrom start)

/-- A variable, where it is allowed. -/
def variableUse (constant : Bool) : Rule Value := do
  mark .dollar
  let name ← name
  if constant then ⊥ else return .variable name

def objectField (value : Rule Value) : Rule (Name × Value) := do
  let name ← name
  mark .colon
  return (name, ← value)

def listValue (value : Rule Value) : Rule Value := do
  let start ← offset
  let items ← between .leftBracket .rightBracket value
  return .list items (← spanFrom start)

def objectValue (value : Rule Value) : Rule Value := do
  let start ← offset
  let fields ← between .leftBrace .rightBrace (objectField value)
  return .object fields (← spanFrom start)

def valueOf (constant : Bool) (value : Rule Value) : Rule Value :=
  variableUse constant ⊔ one Literal ⊔ wordValue .trueWord (.boolean true) ⊔
    wordValue .falseWord (.boolean false) ⊔ wordValue .nullWord .null ⊔ listValue value ⊔ objectValue value

/-- **A value.** With `constant`, it holds no variables. -/
def value (constant : Bool) : Rule Value := least (valueOf constant)

def defaultValue : Rule (Option Value) := optional do
  mark .equals
  value true

/-- A type reference with the given type reference inside. -/
def typeOf (type : Rule TypeExpr) : Rule TypeExpr := do
  let start ← offset
  let nullable ← (do
    mark .leftBracket
    let inner ← type
    mark .rightBracket
    return .list inner (← spanFrom start)) ⊔ (do return .named (← name))
  (do mark .bang; return .nonNull nullable (← spanFrom start)) ⊔ pure nullable

/-- **A reference to a type.** -/
def typeExpr : Rule TypeExpr := least typeOf

def argument (constant : Bool) : Rule Argument := do
  let start ← offset
  let name ← name
  mark .colon
  let value ← value constant
  return ⟨name, value, ← spanFrom start⟩

def arguments (constant : Bool) : Rule (List Argument) :=
  orEmpty (between .leftParen .rightParen (argument constant))

def directive (constant : Bool) : Rule Directive := do
  let start ← offset
  mark .atSign
  let name ← name
  let arguments ← arguments constant
  return ⟨name, arguments, ← spanFrom start⟩

/-- **The directives at a place.** -/
def directives (constant : Bool) : Rule (List Directive) := Many (directive constant)

def inputValueDefinition : Rule InputValueDefinition := described fun start description => do
  let name ← name
  mark .colon
  let type ← typeExpr
  let defaultValue ← defaultValue
  let directives ← directives true
  return ⟨description, name, type, defaultValue, directives, ← spanFrom start⟩

def argumentDefinitions : Rule (List InputValueDefinition) :=
  orEmpty (between .leftParen .rightParen inputValueDefinition)

def fieldDefinition : Rule FieldDefinition := described fun start description => do
  let name ← name
  let arguments ← argumentDefinitions
  mark .colon
  let type ← typeExpr
  let directives ← directives true
  return ⟨description, name, arguments, type, directives, ← spanFrom start⟩

def enumValueDefinition : Rule EnumValueDefinition := described fun start description => do
  let name ← nameExcept reserved
  let directives ← directives true
  return ⟨description, name, directives, ← spanFrom start⟩

/-- The body of a type. Without one, no brace follows. -/
def body {α : Type} (item : Rule α) : Rule (List α) :=
  between .leftBrace .rightBrace item ⊔ (do notBefore (.mark .leftBrace); return [])

def implements : Rule (List Name) := orEmpty do
  keyword .implements
  separated .ampersand name

def unionMembers : Rule (List Name) := orEmpty do
  mark .equals
  separated .pipe name

/-- What stands behind the name of a type that starts with `word`. -/
def typeRest (word : Keyword) : Rule (List Directive × TypeBody) :=
  match word with
  | .scalar => do return (← directives true, .scalar)
  | .type => do
    let implements ← implements
    let directives ← directives true
    return (directives, .object implements (← body fieldDefinition))
  | .interface => do
    let implements ← implements
    let directives ← directives true
    return (directives, .interface implements (← body fieldDefinition))
  | .union => do
    let directives ← directives true
    return (directives, .union (← unionMembers))
  | .enum => do
    let directives ← directives true
    return (directives, .enum (← body enumValueDefinition))
  | .input => do
    let directives ← directives true
    return (directives, .input (← body inputValueDefinition))
  | _ => ⊥

/-- **A type.** Keyword, name and the rest. -/
def typeDefinition (start : Nat) (description : Option Description) : Rule TypeDefinition := do
  let word ← one fun token word => token.kind = .keyword word
  let name ← name
  let (directives, body) ← typeRest word
  return ⟨description, name, directives, body, ← spanFrom start⟩

def operationWords : List (TokenKind × OperationKind) :=
  [(.keyword .query, .query), (.keyword .mutation, .mutation), (.keyword .subscription, .subscription)]

def operationType : Rule OperationKind := one fun token kind => (token.kind, kind) ∈ operationWords

def rootDefinition : Rule RootDefinition := do
  let start ← offset
  let operation ← operationType
  mark .colon
  let type ← name
  return ⟨operation, type, ← spanFrom start⟩

def directiveLocation : Rule (DirectiveLocation × Span) := one fun token (location, span) =>
  token.kind.isName ∧ DirectiveLocation.ofText? token.text = some location ∧ span = token.span

/-- **A schema.** -/
def schemaDefinition (start : Nat) (description : Option Description) : Rule SchemaDefinition := do
  keyword .schema
  let directives ← directives true
  let roots ← between .leftBrace .rightBrace rootDefinition
  return ⟨description, directives, roots, ← spanFrom start⟩

/-- More of the schema, behind its first keyword. -/
def schemaExtension (start : Nat) : Rule SchemaDefinition := do
  keyword .schema
  let directives ← directives true
  let roots ← body rootDefinition
  return ⟨none, directives, roots, ← spanFrom start⟩

/-- **A directive.** -/
def directiveDefinition (start : Nat) (description : Option Description) : Rule DirectiveDefinition := do
  keyword .directive
  mark .atSign
  let name ← name
  let arguments ← argumentDefinitions
  let repeatable ← (do keyword .repeatable; return true) ⊔ pure false
  keyword .on
  let locations ← separated .pipe directiveLocation
  return ⟨description, name, arguments, repeatable, locations, ← spanFrom start⟩

def fragmentName : Rule Name := nameExcept [.keyword .on]

def field (selectionSet : Rule SelectionSet) : Rule Selection := do
  let start ← offset
  let label ← optional do
    let label ← name
    mark .colon
    return label
  let name ← name
  let arguments ← arguments false
  let directives ← directives false
  let set ← optional selectionSet
  return .field ⟨label, name, arguments, directives, ← spanFrom start⟩ (set.map SelectionSet.span)
    ((set.map SelectionSet.selections).getD [])

def spread : Rule Selection := do
  let start ← offset
  mark .spread
  let name ← fragmentName
  let directives ← directives false
  return .spread name directives (← spanFrom start)

def inlineFragment (selectionSet : Rule SelectionSet) : Rule Selection := do
  let start ← offset
  mark .spread
  let condition ← optional do
    keyword .on
    name
  let directives ← directives false
  let set ← selectionSet
  return .inline condition directives set.span set.selections (← spanFrom start)

def selection (selectionSet : Rule SelectionSet) : Rule Selection :=
  field selectionSet ⊔ spread ⊔ inlineFragment selectionSet

def selectionSetOf (selectionSet : Rule SelectionSet) : Rule SelectionSet := do
  let start ← offset
  mark .leftBrace
  let selections ← many1 (selection selectionSet)
  mark .rightBrace
  return ⟨selections, ← spanFrom start⟩

/-- **A selection set.** -/
def selectionSet : Rule SelectionSet := least selectionSetOf

def variableDefinition : Rule VariableDefinition := do
  let start ← offset
  mark .dollar
  let name ← name
  mark .colon
  let type ← typeExpr
  let defaultValue ← defaultValue
  let directives ← directives true
  return ⟨name, type, defaultValue, directives, ← spanFrom start⟩

def variableDefinitions : Rule (List VariableDefinition) :=
  orEmpty (between .leftParen .rightParen variableDefinition)

/-- **An operation.** A selection set alone is a query. -/
def operation : Rule OperationDefinition :=
  (do
    let start ← offset
    let kind ← operationType
    let name ← optional name
    let parameters ← variableDefinitions
    let directives ← directives false
    let body ← selectionSet
    return ⟨kind, name, parameters, directives, body, ← spanFrom start⟩) ⊔
  (do
    let start ← offset
    let body ← selectionSet
    return ⟨.query, none, [], [], body, ← spanFrom start⟩)

/-- **A named fragment.** -/
def fragment : Rule FragmentDefinition := do
  let start ← offset
  keyword .fragment
  let name ← fragmentName
  keyword .on
  let condition ← Grammar.name
  let directives ← directives false
  let body ← selectionSet
  return ⟨name, condition, directives, body, ← spanFrom start⟩

/-- What may carry a description at the top level. -/
def typeSystemDefinition (start : Nat) (description : Option Description) : Rule Definition :=
  (do return .schema (← schemaDefinition start description)) ⊔
    (do return .type (← typeDefinition start description)) ⊔
    (do return .directive (← directiveDefinition start description))

/-- An extension. It carries no description. -/
def extension : Rule Definition := do
  let start ← offset
  keyword .extend
  (do return .schemaExtension (← schemaExtension start)) ⊔ (do return .typeExtension (← typeDefinition start none))

/-- An operation or a fragment. It carries no description. -/
def executableDefinition : Rule Definition :=
  (do return .operation (← operation)) ⊔ (do return .fragment (← fragment))

/-- **A definition.** -/
def definition : Rule Definition := described typeSystemDefinition ⊔ extension ⊔ executableDefinition

/-- **The tokens of a document** and its tree: definitions up to the end of the text. -/
inductive Derives : List Token → Document → Prop
  | mk {tokens : List Token} {last : Token} {definitions : List Definition} (hlast : last.kind = .eof)
      (h : Many definition tokens last definitions) :
    Derives (tokens ++ [last]) ⟨definitions, ⟨(tokens.headD last).span.start, last.span.stop⟩⟩

end GraphClient.Syntax.Grammar
