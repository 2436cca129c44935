import DiagramScope.Broker

/-!
Editing the mask of a node. New rows are filled from the variables in scope that no row shows yet.
-/

set_option autoImplicit false
set_option relaxedAutoImplicit false

namespace DiagramScope

open Script (Bindings)

/-- The mask of a node while it is edited, and the variables in scope at the node. -/
structure Customization where
  node : Node
  mask : Mask
  context : Bindings

namespace Customization

def startingMask (p : Properties) (node : Node) : Except Failure Mask :=
  (Resolution.storedMask p node).map fun mask => mask.getD .default

/-- Opens the mask of a node. The broker's session is used to evaluate the context and given back
before the mask is read. There is no result if somebody has the session. -/
def openMask (b : Broker) (p : Properties) (maxDepth : Nat) (node : Node) :
    Broker × Except Failure (Option Customization) :=
  match b.evaluateAt p maxDepth node with
  | (b, .ok (some context)) =>
    (b, (startingMask p node).map fun mask => some ⟨node, mask, context⟩)
  | (b, .ok none) => (b, .ok none)
  | (b, .error failure) => (b, .error failure)

def entries (c : Customization) : List Mask.Entry := c.mask.entries

def size (c : Customization) : Nat := c.entries.length

def isEmpty (c : Customization) : Bool := c.entries.isEmpty

def withEntries (c : Customization) (entries : List Mask.Entry) : Customization :=
  { c with mask := { c.mask with entries } }

def setTitle (c : Customization) (title : String) : Customization :=
  { c with mask := { c.mask with title } }

def isShown (c : Customization) (name : String) : Bool := c.mask.names.contains name

def generatedName (n : Nat) : String := "generatedVar" ++ toString n

def isFree (c : Customization) (name : String) : Bool :=
  !c.context.contains name && !c.isShown name

/-- The first generated name that is free. Among one more candidates than there are names in use,
one is free. -/
def freshName (c : Customization) : String :=
  (((List.range (c.context.size + c.size + 1)).map generatedName).find? c.isFree).getD
    "generatedVar"

/-- The name and the value of the next new row: of the first variable in scope that no row shows, or
a free name for the empty matrix. -/
def nextVariable (c : Customization) : String × String :=
  match c.context.entries.find? fun e => !c.isShown e.1 with
  | some (name, value) => (name, value.display)
  | none => (c.freshName, "[]")

def nextEntry (c : Customization) : Mask.Entry :=
  let (name, value) := c.nextVariable
  ⟨name, value, "Generated variable " ++ name⟩

def insertRow (c : Customization) : Customization := c.withEntries (c.entries ++ [c.nextEntry])

/-- The index of the row to remove: the selected one if it exists, else the last. -/
def removalIndex (c : Customization) (selected : Option Nat) : Nat :=
  match selected with
  | some index => if index < c.size then index else c.size - 1
  | none => c.size - 1

def removeRow (c : Customization) (selected : Option Nat) : Customization × Option Mask.Entry :=
  let index := c.removalIndex selected
  (c.withEntries (c.entries.eraseIdx index), c.entries[index]?)

def exchange? {α : Type} (xs : List α) (i j : Nat) : Option (List α) :=
  match xs[i]?, xs[j]? with
  | some x, some y => some ((xs.set i y).set j x)
  | _, _ => none

/-- Exchanges a row with the one above. The flag tells whether there is such a pair. -/
def moveUp (c : Customization) (index : UInt64) : Option (Customization × Bool) :=
  if index = 0 ∨ c.size ≤ index.toNat then some (c, false)
  else
    (exchange? c.entries index.toNat (index - 1).toNat).map fun entries =>
      (c.withEntries entries, true)

/-- Exchanges a row with the one below. The flag tells whether there is such a pair. The index of
the row below is a machine word; behind the greatest word comes zero, and there is no result if the
exchange then lacks a row. -/
def moveDown (c : Customization) (index : UInt64) : Option (Customization × Bool) :=
  if c.size ≤ (index + 1).toNat then some (c, false)
  else
    (exchange? c.entries index.toNat (index + 1).toNat).map fun entries =>
      (c.withEntries entries, true)

def insertRows (c : Customization) : (count : Nat) → Customization
  | 0 => c
  | count + 1 => c.insertRow.insertRows count

/-- Appends or removes rows at the end until there are as many as asked for. -/
def setRowCount (c : Customization) (count : Nat) : Customization :=
  let c := c.insertRows (count - c.size)
  c.withEntries (c.entries.take count)

def setEntry (c : Customization) (index : Nat) (entry : Mask.Entry) :
    Except Failure Customization :=
  if index < c.size then .ok (c.withEntries (c.entries.set index entry))
  else .error (.rowOutOfRange index c.size)

def save (c : Customization) (s : Store) : Except Failure Store :=
  Failure.ofStore (s.set c.node .maskExprs (.exprs (some (Mask.encode c.mask))))

end Customization

end DiagramScope
