import DiagramScope.Decimal.Text
import DiagramScope.Script.Diagnostic
import DiagramScope.Script.Syntax

/-!
The ways in which evaluating an expression can fail, and the diagnostics that report them.
-/

set_option autoImplicit false
set_option relaxedAutoImplicit false

namespace DiagramScope.Script

inductive Arity where
  | one
  | oneOrTwo
  deriving DecidableEq, Repr

def Arity.text : Arity → String
  | one => "1 argument"
  | oneOrTwo => "1 or 2 arguments"

/-- Why an expression or an assignment has no value. Types are given by their names. -/
inductive EvaluationFault where
  | undefinedVariable (name : String) (span : Span)
  | unknownFunction (name : String) (available : List String) (span : Span)
  | argumentCount (function : String) (arity : Arity) (found : Nat) (span : Span)
  | indexCount (name : String) (found : Nat) (span : Span)
  | rejectedArgument (function found : String) (span : Span)
  | notNumeric (found : String) (span : Span)
  | notElement (found : String) (span : Span)
  | mixedVector (span : Span)
  | operandTypes (operator : Operator) (left right : String) (span : Span)
  | operandLengths (left right : Nat) (span : Span)
  | badIndex (span : Span)
  | indexOutOfBounds (position : Float) (name : String) (span : Span)
  | constantAssignment (name : String) (span : Span)
  deriving Repr

namespace EvaluationFault

def diagnostic : EvaluationFault → Diagnostic
  | undefinedVariable name span =>
    ⟨"undefined variable `" ++ name ++ "`", some .undefinedVariable,
      [⟨span, "not defined in this context", true⟩],
      some ("define `" ++ name ++ "` in an enclosing context, or assign it before use")⟩
  | unknownFunction name available span =>
    .ofCode .unknownFunction ("unknown function `" ++ name ++ "`") span
      (some ("available functions: " ++ String.intercalate ", " available))
  | argumentCount function arity found span =>
    .ofCode .argumentCount
      ("`" ++ function ++ "` takes " ++ arity.text ++ ", found " ++ toString found) span none
  | indexCount name found span =>
    .ofCode .argumentCount
      ("indexing `" ++ name ++ "` takes 1 index, found " ++ toString found) span none
  | rejectedArgument function found span =>
    .ofCode .typeMismatch ("`" ++ function ++ "` does not accept a " ++ found) span none
  | notNumeric found span => .ofCode .typeMismatch ("cannot negate a " ++ found) span none
  | notElement found span =>
    .ofCode .typeMismatch ("a " ++ found ++ " cannot be an element of a vector") span none
  | mixedVector span =>
    .ofCode .typeMismatch "cannot mix numbers and strings in a vector" span none
  | operandTypes operator left right span =>
    .ofCode .typeMismatch
      ("cannot apply `" ++ operator.text ++ "` to " ++ left ++ " and " ++ right) span none
  | operandLengths left right span =>
    .ofCode .dimensionMismatch
      ("operands have " ++ toString left ++ " and " ++ toString right ++ " elements") span
      (some "use vectors of the same length, or a scalar")
  | badIndex span => .ofCode .typeMismatch "index must be a positive integer" span none
  | indexOutOfBounds position name span =>
    .ofCode .dimensionMismatch
      ("index " ++ Decimal.plain position ++ " is out of bounds for `" ++ name ++ "`") span none
  | constantAssignment name span =>
    ⟨"cannot assign to `" ++ name ++ "`", some .constantAssignment,
      [⟨span, "predefined constant", true⟩],
      some "choose a name that does not start with `%`"⟩

end EvaluationFault

end DiagramScope.Script
