/-!
Masks: the parameter table of a block, a title over rows of a name, a value and a description.
-/

set_option autoImplicit false
set_option relaxedAutoImplicit false

namespace DiagramScope

namespace Mask

structure Entry where
  name : String
  value : String
  description : String
  deriving DecidableEq, Repr

/-- The statement that binds the name of a row to its value, which is copied as it stands. -/
def Entry.assignment (e : Entry) : String := e.name ++ " = " ++ e.value

def defaultTitle : String := "Set block parameters"

end Mask

/-- A mask. The order of its rows counts. -/
structure Mask where
  title : String
  entries : List Mask.Entry
  deriving DecidableEq, Repr

namespace Mask

def default : Mask := ⟨defaultTitle, []⟩

instance : Inhabited Mask := ⟨default⟩

def size (m : Mask) : Nat := m.entries.length

def isEmpty (m : Mask) : Bool := m.entries.isEmpty

def names (m : Mask) : List String := m.entries.map Entry.name

def assignments (m : Mask) : List String := m.entries.map Entry.assignment

end Mask

end DiagramScope
