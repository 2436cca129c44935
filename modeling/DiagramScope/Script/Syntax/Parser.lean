import DiagramScope.Script.Syntax
import DiagramScope.Script.Token.Lexer

/-!
Reading statements from tokens by recursive descent. From loosest to tightest bind chains of `+ -`,
chains of `* /`, prefix signs, and `^`, which associates to the right. A parser ends in one of three
ways: with a value, with a refusal that lets its caller try something else, or with a halt that ends
the whole text. Every prefix position and every operator of a chain is one nesting level; at most
`maxNesting` levels are entered, which also bounds the recursion.
-/

set_option autoImplicit false
set_option relaxedAutoImplicit false

namespace DiagramScope.Script

def maxNesting : Nat := 128

/-- What would have continued a statement at the place where it stopped making sense. -/
inductive Expected where
  | expression
  | closeParen
  | closeBracket
  | separator
  deriving DecidableEq, Repr

def Expected.text : Expected → String
  | expression => "expression"
  | closeParen => "`)`"
  | closeBracket => "`]`"
  | separator => "`;` or newline"

inductive Cause where
  | missing (expected : Expected)
  | nesting
  deriving DecidableEq, Repr

/-- The tokens that are still to be read, and the nesting level that is in force. -/
structure Cursor where
  rest : List Lexeme
  level : Nat
  deriving Repr

inductive Outcome (α : Type) where
  | done (value : α) (cursor : Cursor)
  /-- Nothing that was read rules out another way to go on. -/
  | refused (cause : Cause) (cursor : Cursor)
  /-- There is no other way to go on. -/
  | halted (cause : Cause) (cursor : Cursor)
  deriving Repr

namespace Outcome

variable {α β : Type}

def bind (o : Outcome α) (f : α → Cursor → Outcome β) : Outcome β :=
  match o with
  | done a c => f a c
  | refused cause c => refused cause c
  | halted cause c => halted cause c

def map (f : α → β) (o : Outcome α) : Outcome β := o.bind fun a c => .done (f a) c

def commit : Outcome α → Outcome α
  | refused cause c => halted cause c
  | o => o

def cursor : Outcome α → Cursor
  | done _ c => c
  | refused _ c => c
  | halted _ c => c

def relevel (f : Nat → Nat) : Outcome α → Outcome α
  | done a c => done a { c with level := f c.level }
  | refused cause c => refused cause { c with level := f c.level }
  | halted cause c => halted cause { c with level := f c.level }

end Outcome

/-- A parser reads tokens at a cursor. -/
def Parser (α : Type) : Type := Cursor → Outcome α

namespace Parser

variable {α β : Type}

instance : Monad Parser where
  pure a := fun c => .done a c
  bind p f := fun c => (p c).bind fun a => f a

/-- Reads as `p` does, but leaves no other way to go on. -/
def commit (p : Parser α) : Parser α := fun c => (p c).commit

def accept (select : Token → Option β) : Parser (Option (β × Span)) := fun c =>
  match c.rest with
  | [] => .done none c
  | l :: rest =>
    match select l.token with
    | some b => .done (some (b, l.span)) { c with rest := rest }
    | none => .done none c

def acceptSymbol (s : Symbol) : Parser (Option Span) := fun c =>
  match c.rest with
  | ⟨.symbol s', span⟩ :: rest =>
    if s' = s then .done (some span) { c with rest := rest } else .done none c
  | _ => .done none c

def expectSymbol (s : Symbol) (expected : Expected) : Parser Span := do
  match ← acceptSymbol s with
  | some span => pure span
  | none => fun c => .refused (.missing expected) c

def descend : Parser Unit := fun c =>
  if maxNesting ≤ c.level then .halted .nesting c else .done () { c with level := c.level + 1 }

/-- Reads one nesting level deeper. The level is given back however reading ends. -/
def nested (p : Parser α) : Parser α := do
  descend
  fun c => (p c).relevel (· - 1)

/-- Reads the items behind the first, each after a comma. Where no item follows a comma, the comma
is left unread. The bound is the number of tokens. -/
def moreItems (expression : Parser Expr) : (bound : Nat) → Parser (List Expr)
  | 0 => pure []
  | bound + 1 => fun c =>
    match acceptSymbol .comma c with
    | .done (some _) c' =>
      match expression c' with
      | .done item c'' => (moreItems expression bound c'').map (item :: ·)
      | .refused _ c'' => .done [] { c'' with rest := c.rest }
      | .halted cause c'' => .halted cause c''
    | _ => .done [] c

def items (expression : Parser Expr) (close : Symbol) (expected : Expected) :
    Parser (List Expr × Span) := do
  match ← acceptSymbol close with
  | some span => pure ([], span)
  | none =>
    let first ← expression
    let more ← fun c => moreItems expression c.rest.length c
    let span ← expectSymbol close expected
    pure (first :: more, span)

def multiplicative? : Token → Option Operator
  | .symbol .star => some .multiply
  | .symbol .slash => some .divide
  | _ => none

def additive? : Token → Option Operator
  | .symbol .plus => some .add
  | .symbol .minus => some .subtract
  | _ => none

def sign? : Token → Option Sign
  | .symbol .minus => some .minus
  | .symbol .plus => some .plus
  | _ => none

/-- Reads the operators of a chain behind its first operand, joining them from the left. Every
operator is one level deeper than the one before. The bound is the number of tokens. -/
def chainFrom (operator? : Token → Option Operator) (operand : Parser Expr) :
    (bound : Nat) → Expr → Parser Expr
  | 0, left => pure left
  | bound + 1, left => do
    match ← accept operator? with
    | none => pure left
    | some (operator, _) =>
      descend
      let right ← commit operand
      chainFrom operator? operand bound (.joined operator left right)

/-- Reads a chain of operands. The level is that of the first operand again at the end. -/
def chain (operator? : Token → Option Operator) (operand : Parser Expr) : Parser Expr := do
  let first ← operand
  fun c => (chainFrom operator? operand c.rest.length first c).bind fun e c' =>
    .done e { c' with level := c.level }

section Grammar

/- The rules of the grammar below prefix signs, over a parser for the signed expressions inside. -/
variable (unary : Parser Expr)

def product : Parser Expr := chain multiplicative? unary

def sum : Parser Expr := chain additive? (product unary)

def expression : Parser Expr := sum unary

def callOrVariable (name : String) (nameSpan : Span) : Parser Expr := do
  match ← acceptSymbol .leftParen with
  | none => pure (.reference name nameSpan)
  | some _ =>
    let (arguments, close) ← commit (items (expression unary) .rightParen .closeParen)
    pure (.call name nameSpan arguments (nameSpan.union close))

def vector (opening : Span) : Parser Expr := do
  let (items, close) ← commit (items (expression unary) .rightBracket .closeBracket)
  pure (.vector items (opening.union close))

/-- Reads a group behind its opening parenthesis. It is its inner expression, on a wider span. -/
def parenthesized (opening : Span) : Parser Expr := do
  let inner ← commit (expression unary)
  let close ← commit (expectSymbol .rightParen .closeParen)
  pure (inner.withSpan (opening.union close))

def primary : Parser Expr := fun c =>
  match c.rest with
  | ⟨.number value, span⟩ :: rest => .done (.number value span) { c with rest := rest }
  | ⟨.text content, span⟩ :: rest => .done (.text content span) { c with rest := rest }
  | ⟨.name name, span⟩ :: rest => callOrVariable unary name span { c with rest := rest }
  | ⟨.symbol .leftParen, span⟩ :: rest => parenthesized unary span { c with rest := rest }
  | ⟨.symbol .leftBracket, span⟩ :: rest => vector unary span { c with rest := rest }
  | _ => .refused (.missing .expression) c

/-- Reads a primary expression and an optional exponent, which may carry signs. -/
def power : Parser Expr := do
  let base ← primary unary
  match ← acceptSymbol .caret with
  | none => pure base
  | some _ =>
    let exponent ← commit unary
    pure (.joined .power base exponent)

def signed : Parser Expr := do
  match ← accept sign? with
  | none => power unary
  | some (sign, span) =>
    let operand ← commit unary
    pure (.signed sign operand (span.union operand.span))

end Grammar

/-- Reads a signed expression that enters at most `budget` levels. -/
def unaryWithin : (budget : Nat) → Parser Expr
  | 0 => fun c => .halted .nesting c
  | budget + 1 => nested (signed (unaryWithin budget))

/-- Reads a signed expression. The levels that are left bound the recursion. -/
def unary : Parser Expr := fun c => unaryWithin (maxNesting - c.level) c

/-- Reads an assignment or an expression. A name makes an assignment only before an equals sign. -/
def statement : Parser Statement := fun c =>
  match c.rest with
  | ⟨.name name, nameSpan⟩ :: ⟨.symbol .equals, _⟩ :: rest =>
    (commit (expression unary) { c with rest := rest }).map (.assign name nameSpan)
  | _ => (expression unary c).map .expression

/-- Reads statements, each ended by a separator or by the end of the text, with any number of
separators before each. The bound is above the number of tokens. -/
def statements : (bound : Nat) → Parser (List Statement)
  | 0 => pure []
  | bound + 1 => fun c =>
    let c := { c with rest := c.rest.dropWhile fun l => l.token.isSeparator }
    if c.rest.isEmpty then .done [] c
    else (statement c).bind fun s c' =>
      match c'.rest with
      | [] => .done [s] c'
      | l :: rest =>
        if l.token.isSeparator then
          (statements bound { c' with rest := rest }).map (s :: ·)
        else .halted (.missing .separator) c'

end Parser

inductive SyntaxFault where
  | unexpected (found : Lexeme) (expected : Expected)
  /-- The text, of `length` bytes, ends behind the token `last` within a statement. -/
  | incomplete (expected : Expected) (length : Nat) (last : Option Lexeme)
  | nesting (span : Span)
  deriving Repr

namespace SyntaxFault

/-- The fault of a parser that stopped at a cursor. It names the first token that was not read. -/
def ofCause (cause : Cause) (cursor : Cursor) (lexemes : List Lexeme) (length : Nat) :
    SyntaxFault :=
  match cause, cursor.rest with
  | .missing expected, found :: _ => unexpected found expected
  | .missing expected, [] => incomplete expected length lexemes.getLast?
  | .nesting, found :: _ => nesting found.span
  | .nesting, [] => nesting ((lexemes.getLast?.map Lexeme.span).getD (.atOffset length))

def diagnostic : SyntaxFault → Diagnostic
  | unexpected found expected =>
    .ofCode .unexpectedToken
      ("unexpected `" ++ found.token.display ++ "`, expected " ++ expected.text) found.span none
  | incomplete expected length last =>
    ⟨"input ended early, expected " ++ expected.text, some .incompleteInput,
      ⟨.atOffset length, Code.incompleteInput.description, true⟩ ::
        (last.map fun l => ⟨l.span, "statement is incomplete after this", false⟩).toList,
      none⟩
  | nesting span =>
    .ofCode .nestedTooDeeply
      ("expression nests deeper than " ++ toString maxNesting ++ " levels") span
      (some "split the expression into intermediate assignments")

end SyntaxFault

def parseLexemes (lexemes : List Lexeme) (length : Nat) : Except SyntaxFault (List Statement) :=
  match Parser.statements (lexemes.length + 1) ⟨lexemes, 0⟩ with
  | .done program _ => .ok program
  | .refused cause cursor => .error (.ofCause cause cursor lexemes length)
  | .halted cause cursor => .error (.ofCause cause cursor lexemes length)

/-- Reads the statements of a source text: all its lexical problems, or its first syntax problem,
or the statements. -/
def parse (source : String) : Except Diagnostics (List Statement) :=
  match tokenize source with
  | .error problems => .error problems
  | .ok lexemes =>
    match parseLexemes (lexemes.filter fun l => !l.token.isTrivia)
        (Text.utf8Length source.toList) with
    | .ok program => .ok program
    | .error fault => .error (.single fault.diagnostic)

end DiagramScope.Script
