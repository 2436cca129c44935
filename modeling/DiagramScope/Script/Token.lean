import DiagramScope.Decimal.Text
import DiagramScope.Script.Span

/-!
Tokens of the statement language and their display text.
-/

set_option autoImplicit false
set_option relaxedAutoImplicit false

namespace DiagramScope.Script

inductive Symbol where
  | plus | minus | star | slash | caret | equals
  | leftParen | rightParen | leftBracket | rightBracket | comma | semicolon
  deriving DecidableEq, Repr

namespace Symbol

def toChar : Symbol → Char
  | plus => '+'
  | minus => '-'
  | star => '*'
  | slash => '/'
  | caret => '^'
  | equals => '='
  | leftParen => '('
  | rightParen => ')'
  | leftBracket => '['
  | rightBracket => ']'
  | comma => ','
  | semicolon => ';'

def all : List Symbol :=
  [plus, minus, star, slash, caret, equals, leftParen, rightParen, leftBracket, rightBracket,
    comma, semicolon]

def ofChar? (c : Char) : Option Symbol := all.find? fun s => s.toChar = c

theorem ofChar?_toChar (s : Symbol) : ofChar? s.toChar = some s := by
  cases s <;> decide

end Symbol

inductive Token where
  | number (value : Float)
  /-- The content of a string literal. -/
  | text (content : String)
  /-- A variable, constant or function name. -/
  | name (spelling : String)
  | symbol (symbol : Symbol)
  /-- A comment, without its leading slashes. -/
  | comment (content : String)
  | blank
  | newline
  deriving Repr

namespace Token

/-- Blanks and comments, which carry no meaning. -/
def isTrivia : Token → Bool
  | blank => true
  | comment _ => true
  | _ => false

def isSeparator : Token → Bool
  | symbol .semicolon => true
  | newline => true
  | _ => false

def display : Token → String
  | number value => Decimal.plain value
  | text content => "\"" ++ content ++ "\""
  | name spelling => spelling
  | symbol s => String.singleton s.toChar
  | comment content => "//" ++ content
  | blank => "whitespace"
  | newline => "newline"

end Token

structure Lexeme where
  token : Token
  span : Span
  deriving Repr

def Lexeme.shift (l : Lexeme) (bytes : Nat) : Lexeme := { l with span := l.span.shift bytes }

end DiagramScope.Script
