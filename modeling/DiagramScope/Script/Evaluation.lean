import DiagramScope.Script.Builtin

/-!
Evaluation of expressions and statements in a scope of local variables over global ones. Statements
bind local variables only.
-/

set_option autoImplicit false
set_option relaxedAutoImplicit false

namespace DiagramScope.Script

/-- The variables that an expression can see. Local variables hide global ones. -/
structure Scope where
  globals : Bindings
  locals : Bindings

namespace Scope

def fresh (globals : Bindings) : Scope := ⟨globals, .empty⟩

/-- The value of a name: of a local variable, else of a global one, else of a constant. -/
def lookup? (scope : Scope) (name : String) : Option Value :=
  match scope.locals.get? name with
  | some value => some value
  | none =>
    match scope.globals.get? name with
    | some value => some value
    | none => constant? name

def assign (scope : Scope) (name : String) (value : Value) : Scope :=
  { scope with locals := scope.locals.insert name value }

end Scope

structure Cells where
  numbers : List Float
  texts : List String

namespace Cells

def none : Cells := ⟨[], []⟩

/-- The cells with those of one more item, whose expression stands at a span. -/
def append (cells : Cells) (item : Value) (span : Span) : Except EvaluationFault Cells :=
  match item.numbers?, item.texts? with
  | some more, _ => checked ⟨cells.numbers ++ more, cells.texts⟩
  | _, some more => checked ⟨cells.numbers, cells.texts ++ more⟩
  | _, _ => .error (.notElement item.typeName span)
where
  checked (cells : Cells) : Except EvaluationFault Cells :=
    if !cells.numbers.isEmpty && !cells.texts.isEmpty then .error (.mixedVector span)
    else .ok cells

def toValue (cells : Cells) : Value :=
  if cells.texts.isEmpty then .ofNumbers cells.numbers else .ofTexts cells.texts

end Cells

def position? (value : Value) : Option (Float × Nat) :=
  match value with
  | .number x =>
    match (Decimal.Binary64.ofFloat x).toInt? with
    | some (.ofNat (n + 1)) => some (x, n + 1)
    | _ => none
  | _ => none

def element? (target : Value) (position : Nat) : Option Value :=
  match target with
  | .empty => none
  | .row cells => (cells[position - 1]?).map .number
  | .texts cells => (cells[position - 1]?).map .text
  | .list items => items[position - 1]?
  | scalar => if position = 1 then some scalar else none

/-- The element of a named value at an index, whose expression stands at a span. -/
def elementAt (name : String) (target index : Value) (span : Span) :
    Except EvaluationFault Value :=
  match position? index with
  | none => .error (.badIndex span)
  | some (number, position) =>
    match element? target position with
    | some value => .ok value
    | none => .error (.indexOutOfBounds number name span)

mutual

def evaluate (scope : Scope) : Expr → Except EvaluationFault Value
  | .number value _ => .ok (.number value)
  | .text content _ => .ok (.text content)
  | .reference name span =>
    match scope.lookup? name with
    | some value => .ok value
    | none => .error (.undefinedVariable name span)
  | .vector items _ => (collect scope .none items).map Cells.toValue
  | .call name nameSpan arguments span =>
    match scope.lookup? name with
    | some target =>
      match arguments with
      | [index] => do elementAt name target (← evaluate scope index) index.span
      | _ => .error (.indexCount name arguments.length span)
    | none =>
      match Builtin.ofName? name with
      | some builtin => do builtin.apply name (← evaluateAll scope arguments) span
      | none => .error (.unknownFunction name Builtin.names nameSpan)
  | .signed sign operand _ => do applySign sign (← evaluate scope operand) operand.span
  | .binary operator left right span => do
    let left ← evaluate scope left
    let right ← evaluate scope right
    applyOperator operator left right span

def evaluateAll (scope : Scope) : List Expr → Except EvaluationFault (List Value)
  | [] => .ok []
  | e :: rest => do
    let value ← evaluate scope e
    let values ← evaluateAll scope rest
    pure (value :: values)

def collect (scope : Scope) (cells : Cells) : List Expr → Except EvaluationFault Cells
  | [] => .ok cells
  | item :: rest => do
    let value ← evaluate scope item
    let cells ← cells.append value item.span
    collect scope cells rest

end

def execute (scope : Scope) : Statement → Except EvaluationFault Scope
  | .assign name nameSpan value =>
    if (constant? name).isSome then .error (.constantAssignment name nameSpan)
    else (evaluate scope value).map (scope.assign name)
  | .expression value => (evaluate scope value).map fun _ => scope

/-- Carries out statements up to the first that fails. What was assigned before it is kept. -/
def executeAll (scope : Scope) : List Statement → Scope × Option EvaluationFault
  | [] => (scope, none)
  | s :: rest =>
    match execute scope s with
    | .ok scope' => executeAll scope' rest
    | .error fault => (scope, some fault)

end DiagramScope.Script
