import DiagramScope.Resolution

/-!
The broker of a session: it lets one caller at a time use the session, and keeps the variables that
were read last for the case that an evaluation fails.
-/

set_option autoImplicit false
set_option relaxedAutoImplicit false

namespace DiagramScope

open Script (Bindings)

structure Broker where
  slots : SlotNames
  session : Session
  lastRead : Bindings
  /-- Whether a caller has the session. -/
  held : Bool

namespace Broker

def ofSession (session : Session) (slots : SlotNames) : Broker := ⟨slots, session, .empty, false⟩

def fresh (slots : SlotNames) : Broker := ofSession .fresh slots

instance : Inhabited Broker := ⟨fresh .default⟩

def tryAcquire (b : Broker) : Option Broker := if b.held then none else some { b with held := true }

def release (b : Broker) : Broker := { b with held := false }

def writeContext (b : Broker) (lines : List String) : Except SessionFault Broker :=
  (b.session.writeLines b.slots.context lines).map fun session => { b with session }

/-- The variables that the session holds. If it holds any, they are those read last from here on. -/
def readContext (b : Broker) : Broker × Bindings :=
  match b.session.captured? b.slots with
  | some bound => ({ b with lastRead := bound }, bound)
  | none => (b, .empty)

/-- Writes statements, evaluates them and reads the variables. If evaluation fails, the variables
read last stand in for them. -/
def evaluateContext (b : Broker) (lines : List String) :
    Except SessionFault (Broker × Bindings) := do
  let b ← b.writeContext lines
  match b.session.submit b.slots with
  | .ok session => pure { b with session }.readContext
  | .error _ => pure (b, b.lastRead)

/-- Evaluates the context of a node in the broker's session, whose caller has it. -/
def evaluateNode (b : Broker) (p : Properties) (maxDepth : Nat) (node : Node) :
    Except Failure (Broker × Bindings) := do
  let statements ← Resolution.resolve p maxDepth node
  Failure.ofSession (b.evaluateContext statements)

/-- Takes the session, evaluates the context of a node and gives the session back, also on failure.
There is no result if somebody has the session. -/
def evaluateAt (b : Broker) (p : Properties) (maxDepth : Nat) (node : Node) :
    Broker × Except Failure (Option Bindings) :=
  match b.tryAcquire with
  | none => (b, .ok none)
  | some b =>
    match b.evaluateNode p maxDepth node with
    | .ok (b, bound) => (b.release, .ok (some bound))
    | .error failure => (b.release, .error failure)

end Broker

end DiagramScope
