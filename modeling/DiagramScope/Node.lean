/-!
References to the nodes of a document: blocks, which may be nested, and the diagrams at their roots.
-/

set_option autoImplicit false
set_option relaxedAutoImplicit false

namespace DiagramScope

inductive NodeKind where
  | block
  | diagram
  deriving DecidableEq, Repr

def NodeKind.text : NodeKind → String
  | block => "block"
  | diagram => "diagram"

/-- A node. A block and a diagram may have the same identifier. -/
structure Node where
  kind : NodeKind
  id : Nat
  deriving DecidableEq, Repr

namespace Node

def block (id : Nat) : Node := ⟨.block, id⟩

def diagram (id : Nat) : Node := ⟨.diagram, id⟩

def isDiagram (n : Node) : Bool := n.kind = .diagram

def text (n : Node) : String := n.kind.text ++ "#" ++ toString n.id

/-- The parent that a raw reference names. Zero stands for none. -/
def parentOfRaw (raw : Nat) : Option Nat := if raw = 0 then none else some raw

end Node

end DiagramScope
