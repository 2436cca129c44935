import DiagramScope.Script.Interpreter

/-!
Evaluation sessions: an interpreter with named slots. Statements are put into a slot, evaluated, and
the variables that they assign are read back from two more slots, names and values apart.
-/

set_option autoImplicit false
set_option relaxedAutoImplicit false

namespace DiagramScope

open Script (Bindings Diagnostics Interpreter Value)

/-- The slots that statements, variable names and variable values stand in. -/
structure SlotNames where
  context : String
  names : String
  values : String
  deriving DecidableEq, Repr

def SlotNames.default : SlotNames := ⟨"context", "context_names", "context_values"⟩

inductive SlotContent where
  | strings (lines : List String)
  | values (values : List Value)

inductive SessionFault where
  /-- A slot cannot be written because its name is empty. -/
  | emptySlotName
  | notStatements (slot : String)
  | evaluation (problems : Diagnostics)
  | busy
  deriving DecidableEq, Repr

def SessionFault.message : SessionFault → String
  | emptySlotName => "cannot write slot ``: slot name is empty"
  | notStatements slot => "evaluation failed: slot `" ++ slot ++ "` does not hold statements"
  | evaluation problems => "evaluation failed: " ++ problems.summary
  | busy => "evaluation failed: session is busy"

structure Session where
  interpreter : Interpreter
  slots : OrderedMap String SlotContent

namespace Session

def fresh : Session := ⟨.fresh, .empty⟩

instance : Inhabited Session := ⟨fresh⟩

def writeLines (s : Session) (slot : String) (lines : List String) :
    Except SessionFault Session :=
  if slot = "" then .error .emptySlotName
  else .ok { s with slots := s.slots.insert slot (.strings lines) }

/-- The statements of a slot. A slot that was never written holds none. -/
def statements (s : Session) (slot : String) : Except SessionFault (List String) :=
  match s.slots.get? slot with
  | some (.strings lines) => .ok lines
  | some (.values _) => .error (.notStatements slot)
  | none => .ok []

/-- Puts the names and values of variables into their slots, the values last. -/
def capture (s : Session) (names : SlotNames) (bound : Bindings) : Session :=
  { s with
    slots := (s.slots.insert names.names (.strings bound.keys)).insert names.values
      (.values bound.values) }

/-- Evaluates the statements of the context slot over the globals and captures the variables. -/
def submit (s : Session) (names : SlotNames) : Except SessionFault Session := do
  let lines ← s.statements names.context
  match s.interpreter.evaluateLines lines with
  | .ok bound => pure (s.capture names bound)
  | .error problems => throw (.evaluation problems)

def read (s : Session) (slot : String) : Option SlotContent := s.slots.get? slot

/-- The captured variables: names and values paired by position, up to the end of the shorter slot.
There are none if a slot is missing or holds something else. -/
def captured? (s : Session) (names : SlotNames) : Option Bindings :=
  match s.read names.names, s.read names.values with
  | some (.strings ks), some (.values vs) => some (.ofList (ks.zip vs))
  | _, _ => none

end Session

end DiagramScope
