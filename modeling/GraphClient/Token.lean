import GraphClient.Position

/-!
# Tokens
-/

namespace GraphClient

/-- The words with a fixed meaning somewhere in the grammar. Each of them is also a name. -/
inductive Keyword
  | type
  | interface
  | union
  | enum
  | input
  | scalar
  | schema
  | extend
  | implements
  | fragment
  | on
  | directive
  | query
  | mutation
  | subscription
  | repeatable
  | trueWord
  | falseWord
  | nullWord
deriving DecidableEq

namespace Keyword

def text : Keyword → String
  | .type => "type"
  | .interface => "interface"
  | .union => "union"
  | .enum => "enum"
  | .input => "input"
  | .scalar => "scalar"
  | .schema => "schema"
  | .extend => "extend"
  | .implements => "implements"
  | .fragment => "fragment"
  | .on => "on"
  | .directive => "directive"
  | .query => "query"
  | .mutation => "mutation"
  | .subscription => "subscription"
  | .repeatable => "repeatable"
  | .trueWord => "true"
  | .falseWord => "false"
  | .nullWord => "null"

def all : List Keyword :=
  [.type, .interface, .union, .enum, .input, .scalar, .schema, .extend, .implements, .fragment,
    .on, .directive, .query, .mutation, .subscription, .repeatable, .trueWord, .falseWord,
    .nullWord]

def ofText? (word : String) : Option Keyword :=
  all.find? fun keyword => keyword.text == word

end Keyword

/-- The marks that are tokens. -/
inductive Mark
  | leftBrace
  | rightBrace
  | leftParen
  | rightParen
  | leftBracket
  | rightBracket
  | colon
  | spread
  | equals
  | pipe
  | ampersand
  | atSign
  | bang
  | dollar
deriving DecidableEq

namespace Mark

def text : Mark → String
  | .leftBrace => "\x7b"
  | .rightBrace => "\x7d"
  | .leftParen => "("
  | .rightParen => ")"
  | .leftBracket => "["
  | .rightBracket => "]"
  | .colon => ":"
  | .spread => "..."
  | .equals => "="
  | .pipe => "|"
  | .ampersand => "&"
  | .atSign => "@"
  | .bang => "!"
  | .dollar => "$"

def ofChar? : Char → Option Mark
  | '\x7b' => some .leftBrace
  | '\x7d' => some .rightBrace
  | '(' => some .leftParen
  | ')' => some .rightParen
  | '[' => some .leftBracket
  | ']' => some .rightBracket
  | ':' => some .colon
  | '=' => some .equals
  | '|' => some .pipe
  | '&' => some .ampersand
  | '@' => some .atSign
  | '!' => some .bang
  | '$' => some .dollar
  | _ => none

end Mark

/-- The kinds of tokens. -/
inductive TokenKind
  | eof
  | error
  | name
  | int
  | float
  | string
  | blockString
  | keyword (word : Keyword)
  | mark (sign : Mark)
deriving DecidableEq

namespace TokenKind

def text : TokenKind → String
  | .eof => "<eof>"
  | .error => "<error>"
  | .name => "<name>"
  | .int => "<int>"
  | .float => "<float>"
  | .string => "<string>"
  | .blockString => "<block-string>"
  | .keyword word => word.text
  | .mark sign => sign.text

def isKeyword : TokenKind → Bool
  | .keyword _ => true
  | _ => false

/-- Whether a token of this kind is a name. Keywords are names too. -/
def isName (kind : TokenKind) : Bool := kind == .name || kind.isKeyword

end TokenKind

/-- A token with its place and text. -/
structure Token where
  kind : TokenKind
  span : Span
  text : String
deriving DecidableEq

end GraphClient
