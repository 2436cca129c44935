import DiagramScope.Script.Arithmetic

/-!
The predefined functions and constants.
-/

set_option autoImplicit false
set_option relaxedAutoImplicit false

namespace DiagramScope.Script

inductive Builtin where
  /-- A function on numbers that is applied to every cell. -/
  | elementwise (function : Float → Float)
  /-- The cell that a choice between two numbers leaves over. -/
  | extremum (choose : Float → Float → Float)
  | size
  | string
  | list

namespace Builtin

def table : List (String × Builtin) :=
  [("abs", elementwise Float.abs), ("ceil", elementwise Float.ceil),
    ("cos", elementwise Float.cos), ("exp", elementwise Float.exp),
    ("floor", elementwise Float.floor), ("list", list), ("log", elementwise Float.log),
    ("max", extremum greater), ("min", extremum lesser), ("round", elementwise Float.round),
    ("sin", elementwise Float.sin), ("size", size), ("sqrt", elementwise Float.sqrt),
    ("string", string), ("tan", elementwise Float.tan)]

def names : List String := table.map Prod.fst

def ofName? (name : String) : Option Builtin := OrderedMap.find name table

/-- The number of rows and columns of a value; for a list, the number of its items. -/
def sizeOf : Value → Value
  | .empty => .row [0, 0]
  | .row cells => .row [1, Float.ofNat cells.length]
  | .texts cells => .row [1, Float.ofNat cells.length]
  | .list items => .number (Float.ofNat items.length)
  | _ => .row [1, 1]

/-- A value as text, cell by cell. Lists have none. -/
def textOf? : Value → Option Value
  | .empty => some (.text "")
  | .number x => some (.text (String.ofList (Value.numberText x)))
  | .row cells => some (.texts (cells.map fun x => String.ofList (Value.numberText x)))
  | .bool b => some (.text (if b then "T" else "F"))
  | .text s => some (.text s)
  | .texts cells => some (.texts cells)
  | .list _ => none

def numeric (name : String) (argument : Value) (span : Span) :
    Except EvaluationFault (List Float) :=
  match argument.numbers? with
  | some cells => .ok cells
  | none => .error (.rejectedArgument name argument.typeName span)

/-- Applies a choice between numbers to all cells of one argument, or cell by cell to two. -/
def applyExtremum (choose : Float → Float → Float) (name : String) (arguments : List Value)
    (span : Span) : Except EvaluationFault Value :=
  match arguments with
  | [argument] => do
    match ← numeric name argument span with
    | [] => pure .empty
    | x :: rest => pure (.number (rest.foldl choose x))
  | [left, right] => do
    let left ← numeric name left span
    let right ← numeric name right span
    let cells ← combine choose left right span
    pure (.ofNumbers cells)
  | _ => .error (.argumentCount name .oneOrTwo arguments.length span)

def apply (builtin : Builtin) (name : String) (arguments : List Value) (span : Span) :
    Except EvaluationFault Value :=
  match builtin, arguments with
  | list, _ => .ok (.list arguments)
  | extremum choose, _ => applyExtremum choose name arguments span
  | elementwise function, [argument] =>
    (numeric name argument span).map fun cells => .ofNumbers (cells.map function)
  | size, [argument] => .ok (sizeOf argument)
  | string, [argument] =>
    match textOf? argument with
    | some value => .ok value
    | none => .error (.rejectedArgument name argument.typeName span)
  | _, _ => .error (.argumentCount name .one arguments.length span)

end Builtin

def constant? (name : String) : Option Value :=
  if name = "%pi" then some (.number 3.141592653589793)
  else if name = "%e" then some (.number 2.718281828459045)
  else if name = "%t" || name = "%T" then some (.bool true)
  else if name = "%f" || name = "%F" then some (.bool false)
  else if name = "%inf" then some (.number (Float.ofBits 0x7FF0000000000000))
  else if name = "%nan" then some (.number (Float.ofBits 0x7FF8000000000000))
  else none

end DiagramScope.Script
