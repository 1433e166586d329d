/-
Lexical tokens: a kind, a source range and the text of the token.
-/
import Arbor.Span

namespace Arbor

/-- what a token is -/
inductive TokenKind where
  | keyword
  | punctuator
  | identifier
  | privateIdentifier
  | string
  | numeric
  | boolean
  | null
  | template
  | regularExpression
  | jsxText
  | jsxIdentifier
  deriving DecidableEq, Repr, Inhabited

namespace TokenKind

/-- the name of the kind, which is also its ESTree tag -/
def name : TokenKind → String
  | .keyword => "Keyword"
  | .punctuator => "Punctuator"
  | .identifier => "Identifier"
  | .privateIdentifier => "PrivateIdentifier"
  | .string => "String"
  | .numeric => "Numeric"
  | .boolean => "Boolean"
  | .null => "Null"
  | .template => "Template"
  | .regularExpression => "RegularExpression"
  | .jsxText => "JSXText"
  | .jsxIdentifier => "JSXIdentifier"

/-- every token kind -/
def all : List TokenKind :=
  [.keyword, .punctuator, .identifier, .privateIdentifier, .string, .numeric, .boolean, .null, .template,
    .regularExpression, .jsxText, .jsxIdentifier]

/-- the kind of an ESTree tag -/
def ofTag? (tag : String) : Option TokenKind := all.find? fun kind => kind.name == tag

/-- the kind is that of keywords -/
def isKeyword (kind : TokenKind) : Bool := kind == .keyword

/-- the kind is that of punctuators -/
def isPunctuator (kind : TokenKind) : Bool := kind == .punctuator

/-- strings, numbers, truth values, null, templates and regular expressions -/
def isLiteral : TokenKind → Bool
  | .string | .numeric | .boolean | .null | .template | .regularExpression => true
  | _ => false

/-- identifiers of every sort -/
def isIdentifier : TokenKind → Bool
  | .identifier | .privateIdentifier | .jsxIdentifier => true
  | _ => false

end TokenKind

/-- a token of the source -/
structure Token where
  kind : TokenKind
  span : Span
  value : String
  deriving DecidableEq, Repr, Inhabited

instance : HasSpan Token := ⟨Token.span⟩

end Arbor
