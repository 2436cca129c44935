import DiagramScope.Failure

/-!
The nodes above a node: the blocks that enclose it, and the diagram at their root.
-/

set_option autoImplicit false
set_option relaxedAutoImplicit false

namespace DiagramScope

/-- A node and the nodes above it, up to the root. -/
structure Hierarchy where
  start : Node
  above : List Node
  deriving DecidableEq, Repr

namespace Hierarchy

def nodes (h : Hierarchy) : List Node := h.start :: h.above

/-- The nodes from the root down to the start, the order in which contexts are merged. -/
def rootFirst (h : Hierarchy) : List Node := h.nodes.reverse

def root (h : Hierarchy) : Node := h.nodes.getLast (by simp [nodes])

def size (h : Hierarchy) : Nat := h.nodes.length

/-- The nodes above a block, when `visited` holds the blocks passed so far, that block included, and
at most `budget` more may be entered. The parents of a node are read in any way that may fail. -/
def climbWith {m : Type → Type} [Monad m] [MonadExceptOf Failure m]
    (parentBlock : Node → m (Option Nat)) (parentDiagram : Node → m Nat) (start : Node) :
    (budget : Nat) → (visited : List Nat) → (block : Nat) → m (List Node)
  | budget, visited, block => do
    match ← parentBlock (.block block) with
    | none =>
      let diagram ← parentDiagram (.block block)
      pure [.diagram diagram]
    | some parent =>
      if visited.contains parent then throw (.cycle start visited.length)
      else
        match budget with
        | 0 => throw (.cycle start visited.length)
        | budget + 1 =>
          let more ← climbWith parentBlock parentDiagram start budget (parent :: visited) parent
          pure (.block parent :: more)

/-- The hierarchy above a node. A diagram stands alone. Above a block stand the blocks that enclose
it, at most `maxDepth` with itself, and the diagram of the last of them. -/
def aboveWith {m : Type → Type} [Monad m] [MonadExceptOf Failure m]
    (parentBlock : Node → m (Option Nat)) (parentDiagram : Node → m Nat) (maxDepth : Nat)
    (start : Node) : m Hierarchy :=
  match start.kind with
  | .diagram => pure ⟨start, []⟩
  | .block => do
    pure ⟨start, ← climbWith parentBlock parentDiagram start (maxDepth - 1) [start.id] start.id⟩

def climb (p : Properties) (start : Node) (budget : Nat) (visited : List Nat) (block : Nat) :
    Except Failure (List Node) :=
  climbWith (fun node => Failure.ofStore (p.parentBlock node))
    (fun node => Failure.ofStore (p.parentDiagram node)) start budget visited block

def above? (p : Properties) (maxDepth : Nat) (start : Node) : Except Failure Hierarchy :=
  aboveWith (fun node => Failure.ofStore (p.parentBlock node))
    (fun node => Failure.ofStore (p.parentDiagram node)) maxDepth start

end Hierarchy

end DiagramScope
