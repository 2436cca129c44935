import DiagramScope.Script.Evaluation
import DiagramScope.Script.Syntax.Parser

/-!
The interpreter: a table of global variables. Running a source binds globals; evaluating lines reads
globals, binds none, and gives the variables that the lines assigned.
-/

set_option autoImplicit false
set_option relaxedAutoImplicit false

namespace DiagramScope.Script

def joinLines (lines : List String) : String := String.intercalate "\n" lines

structure Interpreter where
  globals : Bindings

namespace Interpreter

def fresh : Interpreter := ⟨.empty⟩

instance : Inhabited Interpreter := ⟨fresh⟩

def set (i : Interpreter) (name : String) (value : Value) : Interpreter :=
  ⟨i.globals.insert name value⟩

def get? (i : Interpreter) (name : String) : Option Value := i.globals.get? name

/-- Carries out the statements of a source on the globals. If one fails, the globals keep what the
statements before it assigned; if the source cannot be read, nothing changes. -/
def run (i : Interpreter) (source : String) : Interpreter × Except Diagnostics Unit :=
  match parse source with
  | .error problems => (i, .error problems)
  | .ok program =>
    let (scope, fault) := executeAll (.fresh i.globals) program
    let result := match fault with
      | none => .ok ()
      | some fault => .error (.single fault.diagnostic)
    (⟨i.globals.extend scope.locals⟩, result)

/-- The variables that lines assign, each with its last value, in the order of first assignment. -/
def evaluateLines (i : Interpreter) (lines : List String) : Except Diagnostics Bindings :=
  match parse (joinLines lines) with
  | .error problems => .error problems
  | .ok program =>
    match executeAll (.fresh i.globals) program with
    | (scope, none) => .ok scope.locals
    | (_, some fault) => .error (.single fault.diagnostic)

end Interpreter

end DiagramScope.Script
