import DiagramScope.Mask.Codec
import DiagramScope.Node
import DiagramScope.OrderedMap

/-!
Properties of nodes and the store that keeps them. A node has four properties: its context lines,
its stored mask, its enclosing block and the diagram of a top-level block. Only blocks have parents.
-/

set_option autoImplicit false
set_option relaxedAutoImplicit false

namespace DiagramScope

inductive PropertyKey where
  | rawContext
  | maskExprs
  | parentBlock
  | parentDiagram
  deriving DecidableEq, Repr

def PropertyKey.text : PropertyKey → String
  | rawContext => "raw context"
  | maskExprs => "mask exprs"
  | parentBlock => "parent block"
  | parentDiagram => "parent diagram"

def PropertyKey.typeName : PropertyKey → String
  | rawContext => "strings"
  | maskExprs => "exprs"
  | parentBlock => "optional id"
  | parentDiagram => "id"

/-- The value of a property, of the type that one of the keys asks for. -/
inductive Property where
  | strings (lines : List String)
  | exprs (wire : Option Wire)
  | parent (id : Option Nat)
  | id (id : Nat)

def Property.key : Property → PropertyKey
  | strings _ => .rawContext
  | exprs _ => .maskExprs
  | parent _ => .parentBlock
  | id _ => .parentDiagram

def Property.typeName (p : Property) : String := p.key.typeName

inductive StoreFault where
  | missingNode (node : Node)
  | missingProperty (node : Node) (key : PropertyKey)
  | wrongType (key : PropertyKey) (expected found : String)
  deriving DecidableEq, Repr

def StoreFault.message : StoreFault → String
  | missingNode node => node.text ++ " does not exist"
  | missingProperty node key => node.text ++ " has no " ++ key.text
  | wrongType key expected found =>
    "expected " ++ expected ++ " for " ++ key.text ++ ", found " ++ found

/-- Read access to the properties of nodes, wherever they are kept. -/
abbrev Properties := Node → PropertyKey → Except StoreFault Property

namespace Properties

def mismatch (key : PropertyKey) (found : Property) : StoreFault :=
  .wrongType key key.typeName found.typeName

def rawContext (p : Properties) (node : Node) : Except StoreFault (List String) := do
  match ← p node .rawContext with
  | .strings lines => pure lines
  | other => throw (mismatch .rawContext other)

def maskExprs (p : Properties) (node : Node) : Except StoreFault (Option Wire) := do
  match ← p node .maskExprs with
  | .exprs wire => pure wire
  | other => throw (mismatch .maskExprs other)

def parentBlock (p : Properties) (node : Node) : Except StoreFault (Option Nat) := do
  match ← p node .parentBlock with
  | .parent id => pure id
  | other => throw (mismatch .parentBlock other)

def parentDiagram (p : Properties) (node : Node) : Except StoreFault Nat := do
  match ← p node .parentDiagram with
  | .id id => pure id
  | other => throw (mismatch .parentDiagram other)

end Properties

structure NodeData where
  context : List String
  exprs : Option Wire
  parentBlock : Option Nat
  parentDiagram : Option Nat

namespace NodeData

def blank : NodeData := ⟨[], none, none, none⟩

instance : Inhabited NodeData := ⟨blank⟩

def put (d : NodeData) : Property → NodeData
  | .strings lines => { d with context := lines }
  | .exprs wire => { d with exprs := wire }
  | .parent id => { d with parentBlock := id }
  | .id id => { d with parentDiagram := some id }

end NodeData

/-- Nodes in the order in which they were added, with their properties. -/
structure Store where
  nodes : OrderedMap Node NodeData

namespace Store

def empty : Store := ⟨.empty⟩

instance : Inhabited Store := ⟨empty⟩

def size (s : Store) : Nat := s.nodes.size

def isEmpty (s : Store) : Bool := s.nodes.isEmpty

def contains (s : Store) (node : Node) : Bool := s.nodes.contains node

def nodeList (s : Store) : List Node := s.nodes.keys

/-- Adds a node, or leaves it as it is, and changes its data. -/
def update (s : Store) (node : Node) (change : NodeData → NodeData) : Store :=
  ⟨s.nodes.insert node (change ((s.nodes.get? node).getD .blank))⟩

def get (s : Store) (node : Node) (key : PropertyKey) : Except StoreFault Property :=
  match s.nodes.get? node with
  | none => .error (.missingNode node)
  | some data =>
    match key with
    | .rawContext => .ok (.strings data.context)
    | .maskExprs => .ok (.exprs data.exprs)
    | .parentBlock => .ok (.parent data.parentBlock)
    | .parentDiagram =>
      match data.parentDiagram with
      | some id => .ok (.id id)
      | none => .error (.missingProperty node key)

def properties (s : Store) : Properties := s.get

def isParentKey (key : PropertyKey) : Bool := key = .parentBlock || key = .parentDiagram

/-- Replaces a property of a node that exists. Diagrams have no parents to replace. -/
def set (s : Store) (node : Node) (key : PropertyKey) (value : Property) :
    Except StoreFault Store :=
  match s.nodes.get? node with
  | none => .error (.missingNode node)
  | some data =>
    if isParentKey key && node.isDiagram then .error (.missingProperty node key)
    else if value.key = key then .ok ⟨s.nodes.insert node (data.put value)⟩
    else .error (Properties.mismatch key value)

end Store

end DiagramScope
