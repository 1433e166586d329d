/-
Operators and reserved words of JavaScript, told by their text. A text may belong to several operator families: `-` is
binary and unary. Whether a token is an operator also depends on its kind, since only punctuators and the word
operators, which are keywords, can be one.
-/
import Arbor.Token.Basic

namespace Arbor

/-- families of operators -/
inductive Operator where
  | binary
  | logical
  | unary
  | update
  | assignment
  deriving DecidableEq, Repr, Inhabited

namespace Operator

/-- the name of the family -/
def name : Operator → String
  | .binary => "binary"
  | .logical => "logical"
  | .unary => "unary"
  | .update => "update"
  | .assignment => "assignment"

/-- the operators of the family -/
def texts : Operator → List String
  | .binary =>
    ["==", "!=", "===", "!==", "<", "<=", ">", ">=", "<<", ">>", ">>>", "+", "-", "*", "/", "%", "**", "|", "^", "&",
      "in", "instanceof"]
  | .logical => ["&&", "||", "??"]
  | .unary => ["-", "+", "!", "~", "typeof", "void", "delete"]
  | .update => ["++", "--"]
  | .assignment =>
    ["=", "+=", "-=", "*=", "/=", "%=", "**=", "<<=", ">>=", ">>>=", "|=", "^=", "&=", "&&=", "||=", "??="]

/-- the text is an operator of the family -/
def accepts (family : Operator) (text : String) : Bool := family.texts.contains text

/-- every family, in the order in which they are listed -/
def all : List Operator := [.binary, .logical, .unary, .update, .assignment]

/-- every family that the text belongs to -/
def familiesOf (text : String) : List Operator := all.filter fun family => family.accepts text

end Operator

/-- reserved words of strict ES2022, its literals and future reserved words included -/
def reservedWords : List String :=
  ["await", "break", "case", "catch", "class", "const", "continue", "debugger", "default", "delete", "do", "else",
    "enum", "export", "extends", "false", "finally", "for", "function", "if", "implements", "import", "in",
    "instanceof", "interface", "let", "new", "null", "package", "private", "protected", "public", "return", "static",
    "super", "switch", "this", "throw", "true", "try", "typeof", "var", "void", "while", "with", "yield"]

/-- the text is a reserved word -/
def isReservedWord (text : String) : Bool := reservedWords.contains text

namespace TokenKind

/-- tokens of the kind can be operators -/
def admitsOperators : TokenKind → Bool
  | .punctuator | .keyword => true
  | _ => false

/-- tokens of the kind can be reserved words -/
def admitsReservedWords : TokenKind → Bool
  | .keyword | .identifier | .boolean | .null => true
  | _ => false

end TokenKind

namespace Token

/-- the token is an operator of the family -/
def isOperator (t : Token) (family : Operator) : Bool := t.kind.admitsOperators && family.accepts t.value

/-- the operator families of the token -/
def operators (t : Token) : List Operator := if t.kind.admitsOperators then Operator.familiesOf t.value else []

/-- the token is a reserved word -/
def isReserved (t : Token) : Bool := t.kind.admitsReservedWords && isReservedWord t.value

end Token

end Arbor
