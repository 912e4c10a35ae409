/-!
# Tokens

A script is a sequence of tokens.  A token keeps the text it was written as and the position of its
first character, counted in characters from the start of the script.
-/

namespace BarScript

/-- The kinds of tokens. -/
inductive TokenKind where
  | number
  | text
  /-- A name or one of the words `and`, `or` and `not`. -/
  | word
  | operator
  | openParen
  | closeParen
  | openBracket
  | closeBracket
  | comma
  /-- The end of a statement. -/
  | separator
  deriving Repr, DecidableEq

/-- The name of a kind of tokens in messages. -/
def TokenKind.name : TokenKind → String
  | number => "NUMBER"
  | text => "STRING"
  | word => "IDENT"
  | operator => "OP"
  | openParen => "LPAREN"
  | closeParen => "RPAREN"
  | openBracket => "LBRACKET"
  | closeBracket => "RBRACKET"
  | comma => "COMMA"
  | separator => "SEP"

/-- A token. -/
structure Token where
  kind : TokenKind
  text : String
  position : Nat
  deriving Repr, DecidableEq

namespace Token

/-- The words that are operators. -/
def keywords : List String := ["and", "or", "not"]

/-- The text in lower case; names do not depend on the case of their letters. -/
def lower (t : Token) : String := t.text.toLower

/-- Whether a token is a given keyword. -/
def isKeyword (word : String) (t : Token) : Bool := t.kind = .word && t.lower == word

/-- Whether a token is one of some operators. -/
def isOperator (operators : List String) (t : Token) : Bool :=
  t.kind = .operator && operators.contains t.text

/-- The characters between the quotes of a text. -/
def unquoted (t : Token) : String := String.ofList (t.text.toList.drop 1).dropLast

end Token

end BarScript
