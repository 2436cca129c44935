import DiagramScope.Script.Evaluation.Fault
import DiagramScope.Script.Value

/-!
Arithmetic on cells: operators work element by element, and a side of one cell is used for every
element of the other. Concatenation of texts follows the same rule.
-/

set_option autoImplicit false
set_option relaxedAutoImplicit false

namespace DiagramScope.Script

/-- Combines two rows element by element; a row of one element is repeated. There is no result if
neither has one element and the lengths differ. -/
def broadcast {α β : Type} (f : α → α → β) : List α → List α → Option (List β)
  | [x], ys => some (ys.map (f x))
  | xs, [y] => some (xs.map fun x => f x y)
  | xs, ys => if xs.length = ys.length then some (List.zipWith f xs ys) else none

namespace Operator

def apply : Operator → Float → Float → Float
  | add, x, y => x + y
  | subtract, x, y => x - y
  | multiply, x, y => x * y
  | divide, x, y => x / y
  | power, x, y => Float.pow x y

end Operator

def Sign.apply : Sign → Float → Float
  | .minus, x => -x
  | .plus, x => x

/-- The lesser of two numbers, or the one that is a number. Equal numbers give the second. -/
def lesser (x y : Float) : Float := if y.isNaN then x else if x < y then x else y

def greater (x y : Float) : Float := if y.isNaN then x else if y < x then x else y

def combine {α β : Type} (f : α → α → β) (left right : List α) (span : Span) :
    Except EvaluationFault (List β) :=
  match broadcast f left right with
  | some cells => .ok cells
  | none => .error (.operandLengths left.length right.length span)

/-- The value of an operator between numeric cells: the empty matrix absorbs everything. -/
def applyNumeric (operator : Operator) (left right : List Float) (span : Span) :
    Except EvaluationFault Value :=
  if left.isEmpty || right.isEmpty then .ok .empty
  else (combine operator.apply left right span).map .ofNumbers

/-- The value of an operator between two values. A sum of texts is their concatenation. -/
def applyOperator (operator : Operator) (left right : Value) (span : Span) :
    Except EvaluationFault Value :=
  match operator, left.texts?, right.texts? with
  | .add, some a, some b => (combine (fun x y => x ++ y) a b span).map .ofTexts
  | _, _, _ =>
    match left.numbers?, right.numbers? with
    | some a, some b => applyNumeric operator a b span
    | _, _ => .error (.operandTypes operator left.typeName right.typeName span)

def applySign (sign : Sign) (operand : Value) (span : Span) : Except EvaluationFault Value :=
  match operand.numbers? with
  | some cells => .ok (.ofNumbers (cells.map sign.apply))
  | none => .error (.notNumeric operand.typeName span)

end DiagramScope.Script
