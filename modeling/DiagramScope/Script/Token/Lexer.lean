import DiagramScope.Decimal.Reading
import DiagramScope.Script.Diagnostic
import DiagramScope.Script.Token
import DiagramScope.Text.Blank
import DiagramScope.Text.Quoted
import DiagramScope.Text.Width

/-!
Cutting a source text into tokens. The start of the remaining text decides which token comes next.
Where no token starts, one character is skipped, so that all problems of a text are found at once.
-/

set_option autoImplicit false
set_option relaxedAutoImplicit false

namespace DiagramScope.Script

inductive LexFault where
  /-- A string literal that starts at `start` in a line that ends at `stop`. -/
  | unclosedText (start stop : Nat)
  | strayCharacter (position : Nat)
  deriving DecidableEq, Repr

def LexFault.diagnostic : LexFault → Diagnostic
  | unclosedText start stop =>
    .ofCode .unterminatedString "unterminated string literal" (.between start stop)
      (some "close the string on the same line; double a quote to embed it")
  | strayCharacter position =>
    .ofCode .unexpectedCharacter "unexpected character" (.between position (position + 1)) none

namespace Lexer

/-- What stands at the start of a text, and how many characters it takes. -/
inductive Head where
  | token (token : Token) (length : Nat)
  | unclosedText (length : Nat)
  | stray

def isAsciiLetter (c : Char) : Bool := c.isAlpha

def isNamePart (c : Char) : Bool := isAsciiLetter c || c.isDigit || c = '_'

/-- Characters that a name starts with. A percent sign starts the name of a constant. -/
def isNameStart (c : Char) : Bool := isAsciiLetter c || c = '_' || c = '%'

def isExponentMark (c : Char) : Bool := c = 'e' || c = 'E' || c = 'd' || c = 'D'

/-- Reads a number literal: `3`, `2.5`, `.5`, `1e-3`, `1d3`. A letter, digit or underscore that
follows directly makes it no number at all. Gives the value and the length. -/
def number? (cs : List Char) : Option (Float × Nat) :=
  match Decimal.literal? cs with
  | none => none
  | some lit =>
    let rest := cs.drop lit.length
    let (exponent, taken) := (Decimal.exponent? isExponentMark rest).getD (0, 0)
    match rest.drop taken with
    | c :: _ =>
      if isNamePart c then none
      else some (Decimal.ofParts lit.whole lit.fraction exponent, lit.length + taken)
    | [] => some (Decimal.ofParts lit.whole lit.fraction exponent, lit.length + taken)

/-- Blanks other than the line feed, which is a token of its own. -/
def isInlineBlank (c : Char) : Bool := Text.isBlank c && c ≠ '\n'

def head (c : Char) (rest : List Char) : Head :=
  if c = '/' && rest.head? = some '/' then
    let content := (rest.drop 1).takeWhile (· ≠ '\n')
    .token (.comment (String.ofList content)) (content.length + 2)
  else if c = '"' || c = '\'' then
    match Text.Quoted.inside c rest with
    | .closed content length => .token (.text (String.ofList content)) (length + 1)
    | .unclosed length => .unclosedText (length + 1)
  else
    match number? (c :: rest) with
    | some (value, length) => .token (.number value) length
    | none =>
      if isNameStart c then
        let more := rest.takeWhile isNamePart
        .token (.name (String.ofList (c :: more))) (more.length + 1)
      else
        match Symbol.ofChar? c with
        | some symbol => .token (.symbol symbol) 1
        | none =>
          if c = '\n' then .token .newline 1
          else if isInlineBlank c then .token .blank ((rest.takeWhile isInlineBlank).length + 1)
          else .stray

inductive Piece where
  | lexeme (lexeme : Lexeme)
  | fault (fault : LexFault)

/-- The piece that a head gives rise to at a byte position in front of `cs`, and the number of
characters behind the first that belong to it. A string that is not closed takes its line end. -/
def Head.piece (position : Nat) (cs : List Char) : Head → Piece × Nat
  | token found length =>
    (.lexeme ⟨found, .between position (position + Text.utf8Length (cs.take length))⟩, length - 1)
  | unclosedText length =>
    (.fault (.unclosedText position (position + Text.utf8Length (cs.take length))), length)
  | stray => (.fault (.strayCharacter position), 0)

/-- Cuts a text that stands at a byte position into pieces. The first `skip` characters belong to
the piece before. -/
def pieces (position : Nat) : (skip : Nat) → List Char → List Piece
  | _, [] => []
  | skip + 1, c :: rest => pieces (position + c.utf8Size) skip rest
  | 0, c :: rest =>
    let (piece, skip) := (head c rest).piece position (c :: rest)
    piece :: pieces (position + c.utf8Size) skip rest

def Piece.lexeme? : Piece → Option Lexeme
  | lexeme l => some l
  | fault _ => none

def Piece.fault? : Piece → Option LexFault
  | lexeme _ => none
  | fault f => some f

end Lexer

def lexemes (source : List Char) : Except (List LexFault) (List Lexeme) :=
  let pieces := Lexer.pieces 0 0 source
  match pieces.filterMap Lexer.Piece.fault? with
  | [] => .ok (pieces.filterMap Lexer.Piece.lexeme?)
  | faults => .error faults

def tokenize (source : String) : Except Diagnostics (List Lexeme) :=
  match lexemes source.toList with
  | .ok lexemes => .ok lexemes
  | .error faults => .error ⟨faults.map LexFault.diagnostic⟩

end DiagramScope.Script
