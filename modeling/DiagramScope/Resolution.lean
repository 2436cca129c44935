import DiagramScope.Hierarchy

/-!
Resolving the context of a node: the statements of all nodes of its hierarchy, root first, so that a
binding nearer to the node overrides one nearer to the root.
-/

set_option autoImplicit false
set_option relaxedAutoImplicit false

namespace DiagramScope.Resolution

def maskAssignments (p : Properties) (node : Node) : Except Failure (List String) := do
  match ← Failure.ofStore (p.maskExprs node) with
  | none => pure []
  | some wire =>
    let mask ← Failure.ofShape (Mask.decode wire)
    pure mask.assignments

/-- What a node adds to a context: its lines, a blank line, and the assignments of its mask. -/
def segment (p : Properties) (node : Node) : Except Failure (List String) := do
  let lines ← Failure.ofStore (p.rawContext node)
  let assignments ← maskAssignments p node
  pure (lines ++ "" :: assignments)

/-- The statements in effect at a node. -/
def resolve (p : Properties) (maxDepth : Nat) (node : Node) : Except Failure (List String) := do
  let hierarchy ← Hierarchy.above? p maxDepth node
  let segments ← hierarchy.rootFirst.mapM (segment p)
  pure segments.flatten

def display (statements : List String) : String :=
  String.join (statements.map (· ++ "\n"))

def setRawContext (s : Store) (node : Node) (lines : List String) : Except Failure Store :=
  Failure.ofStore (s.set node .rawContext (.strings lines))

def storedMask (p : Properties) (node : Node) : Except Failure (Option Mask) := do
  match ← Failure.ofStore (p.maskExprs node) with
  | none => pure none
  | some wire => (Failure.ofShape (Mask.decode wire)).map some

/-- Evaluates statements in a fresh interpreter. A failure keeps the text that was evaluated. -/
def check (lines : List String) : Except Failure Script.Bindings :=
  (Script.Interpreter.fresh.evaluateLines lines).mapError fun problems =>
    .script problems (Script.joinLines lines)

def checkAt (p : Properties) (maxDepth : Nat) (node : Node) :
    Except Failure Script.Bindings := do
  check (← resolve p maxDepth node)

end DiagramScope.Resolution
