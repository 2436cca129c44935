import DiagramScope.Failure
import DiagramScope.Toml.Decode
import DiagramScope.Toml.Reader

/-!
Documents: diagrams and blocks with their contexts, parents and masks, as a TOML text declares them.
A document becomes a store if no node is declared twice and no block gives its mask in two forms.
-/

set_option autoImplicit false
set_option relaxedAutoImplicit false

namespace DiagramScope

namespace Document

structure DiagramDeclaration where
  id : Nat
  context : List String

/-- The declaration of a block. The raw parent zero stands for none, and a mask may be given as it
is or in its stored form. -/
structure BlockDeclaration where
  id : Nat
  rawParent : Nat
  parentDiagram : Nat
  context : List String
  mask : Option Mask
  exprs : Option Wire

end Document

structure Document where
  diagrams : List Document.DiagramDeclaration
  blocks : List Document.BlockDeclaration

namespace Document

def declare (s : Store) (node : Node) (data : NodeData) : Except DocumentFault Store :=
  if s.contains node then .error (.declaredTwice node) else .ok (s.update node fun _ => data)

def DiagramDeclaration.node (d : DiagramDeclaration) : Node := .diagram d.id

def DiagramDeclaration.data (d : DiagramDeclaration) : NodeData := ⟨d.context, none, none, none⟩

def BlockDeclaration.node (b : BlockDeclaration) : Node := .block b.id

/-- The stored form of a block's mask, from whichever form is given. -/
def BlockDeclaration.storedExprs (b : BlockDeclaration) : Option Wire :=
  match b.mask with
  | some mask => some (Mask.encode mask)
  | none => b.exprs

def BlockDeclaration.data (b : BlockDeclaration) : NodeData :=
  ⟨b.context, b.storedExprs, Node.parentOfRaw b.rawParent, some b.parentDiagram⟩

def addDiagram (s : Store) (d : DiagramDeclaration) : Except DocumentFault Store :=
  declare s d.node d.data

def addBlock (s : Store) (b : BlockDeclaration) : Except DocumentFault Store := do
  let s ← declare s b.node b.data
  if b.mask.isSome && b.exprs.isSome then throw (.maskAndExprs b.node) else pure s

/-- The store of a document: its diagrams and then its blocks, each in their order. -/
def toStore (d : Document) : Except DocumentFault Store := do
  let s ← d.diagrams.foldlM addDiagram .empty
  d.blocks.foldlM addBlock s

def entryOf (v : Toml.Value) : Except Toml.Fault Mask.Entry := do
  let r ← Toml.Record.ofValue v
  r.closed ["name", "value", "description"]
  let name ← r.required 0 "name" Toml.Value.asText
  let value ← r.withDefault 1 "value" "" Toml.Value.asText
  let description ← r.withDefault 2 "description" "" Toml.Value.asText
  pure ⟨name, value, description⟩

def maskOf (v : Toml.Value) : Except Toml.Fault Mask := do
  let r ← Toml.Record.ofValue v
  r.closed ["title", "entries"]
  let title ← r.withDefault 0 "title" Mask.defaultTitle Toml.Value.asText
  let entries ← r.withDefault 1 "entries" [] (Toml.Value.asList entryOf)
  pure ⟨title, entries⟩

def diagramOf (v : Toml.Value) : Except Toml.Fault DiagramDeclaration := do
  let r ← Toml.Record.ofValue v
  r.closed ["id", "context"]
  let id ← r.required 0 "id" Toml.Value.asNatural
  let context ← r.withDefault 1 "context" [] (Toml.Value.asList Toml.Value.asText)
  pure ⟨id, context⟩

def blockOf (v : Toml.Value) : Except Toml.Fault BlockDeclaration := do
  let r ← Toml.Record.ofValue v
  r.closed ["id", "parent_block", "parent_diagram", "context", "mask", "exprs"]
  let id ← r.required 0 "id" Toml.Value.asNatural
  let rawParent ← r.withDefault 1 "parent_block" 0 Toml.Value.asNatural
  let parentDiagram ← r.required 2 "parent_diagram" Toml.Value.asNatural
  let context ← r.withDefault 3 "context" [] (Toml.Value.asList Toml.Value.asText)
  let mask ← r.optional 4 "mask" maskOf
  let exprs ← r.optional 5 "exprs" Toml.wireOf
  pure ⟨id, rawParent, parentDiagram, context, mask, exprs⟩

def read (text : String) : Except Toml.Fault Document := do
  let r := Toml.Record.named (← Toml.parse text)
  r.closed ["diagram", "block"]
  let diagrams ← r.withDefault 0 "diagram" [] (Toml.Value.asList diagramOf)
  let blocks ← r.withDefault 1 "block" [] (Toml.Value.asList blockOf)
  pure ⟨diagrams, blocks⟩

def parse (text : String) : Except Failure Store :=
  match read text with
  | .error fault => .error (.toml fault)
  | .ok document => document.toStore.mapError .document

end Document

end DiagramScope
