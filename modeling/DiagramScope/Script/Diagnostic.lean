import DiagramScope.Script.Span

/-!
Diagnostics: messages about a source text, with a code, labelled spans and an optional hint.
-/

set_option autoImplicit false
set_option relaxedAutoImplicit false

namespace DiagramScope.Script

inductive Code where
  | unterminatedString
  | unexpectedCharacter
  | unexpectedToken
  | incompleteInput
  | nestedTooDeeply
  | undefinedVariable
  | unknownFunction
  | argumentCount
  | typeMismatch
  | dimensionMismatch
  | constantAssignment
  deriving DecidableEq, Repr

namespace Code

def all : List Code :=
  [unterminatedString, unexpectedCharacter, unexpectedToken, incompleteInput, nestedTooDeeply,
    undefinedVariable, unknownFunction, argumentCount, typeMismatch, dimensionMismatch,
    constantAssignment]

def text : Code → String
  | unterminatedString => "E001"
  | unexpectedCharacter => "E002"
  | unexpectedToken => "E100"
  | incompleteInput => "E101"
  | nestedTooDeeply => "E102"
  | undefinedVariable => "E200"
  | unknownFunction => "E201"
  | argumentCount => "E202"
  | typeMismatch => "E203"
  | dimensionMismatch => "E204"
  | constantAssignment => "E205"

def description : Code → String
  | unterminatedString => "unterminated string literal"
  | unexpectedCharacter => "unexpected character"
  | unexpectedToken => "unexpected token"
  | incompleteInput => "incomplete input"
  | nestedTooDeeply => "expression nested too deeply"
  | undefinedVariable => "undefined variable"
  | unknownFunction => "unknown function"
  | argumentCount => "wrong number of arguments"
  | typeMismatch => "type mismatch"
  | dimensionMismatch => "dimension mismatch"
  | constantAssignment => "cannot assign to constant"

def ofText? (number : String) : Option Code := all.find? fun code => code.text = number

end Code

/-- A remark about one span. The primary label marks the problem itself. -/
structure Label where
  span : Span
  text : String
  primary : Bool
  deriving DecidableEq, Repr

structure Diagnostic where
  message : String
  code : Option Code
  labels : List Label
  help : Option String
  deriving DecidableEq, Repr

namespace Diagnostic

/-- A diagnostic with one primary label that describes its code. -/
def ofCode (code : Code) (message : String) (span : Span) (help : Option String) : Diagnostic :=
  ⟨message, some code, [⟨span, code.description, true⟩], help⟩

def shown (d : Diagnostic) : String := "error: " ++ d.message

def primarySpan? (d : Diagnostic) : Option Span := (d.labels.find? Label.primary).map Label.span

end Diagnostic

structure Diagnostics where
  all : List Diagnostic
  deriving DecidableEq, Repr

namespace Diagnostics

def single (d : Diagnostic) : Diagnostics := ⟨[d]⟩

/-- The first diagnostic and the number of the others. -/
def summary (ds : Diagnostics) : String :=
  match ds.all with
  | [] => ""
  | [only] => only.shown
  | first :: others => first.shown ++ " (+" ++ toString others.length ++ " more)"

end Diagnostics

end DiagramScope.Script
