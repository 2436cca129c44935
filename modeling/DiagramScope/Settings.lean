import DiagramScope.Failure
import DiagramScope.Toml.Decode
import DiagramScope.Toml.Reader

/-!
Settings: the slots of evaluation sessions and the depth to which hierarchies are followed.
-/

set_option autoImplicit false
set_option relaxedAutoImplicit false

namespace DiagramScope

structure Settings where
  slots : SlotNames
  maxDepth : Nat
  deriving DecidableEq, Repr

namespace Settings

def default : Settings := ⟨.default, 1024⟩

instance : Inhabited Settings := ⟨default⟩

/-- The slots that a table names. Slots that it does not name keep their default names. -/
def slotsOf (v : Toml.Value) : Except Toml.Fault SlotNames := do
  let r ← Toml.Record.ofValue v
  let context ← r.withDefault 0 "context_slot" SlotNames.default.context Toml.Value.asText
  let names ← r.withDefault 1 "names_slot" SlotNames.default.names Toml.Value.asText
  let values ← r.withDefault 2 "values_slot" SlotNames.default.values Toml.Value.asText
  pure ⟨context, names, values⟩

def maxDepthOf (v : Toml.Value) : Except Toml.Fault Nat := do
  let r ← Toml.Record.ofValue v
  r.withDefault 0 "max_depth" default.maxDepth Toml.Value.asNatural

def parse (text : String) : Except Toml.Fault Settings := do
  let r := Toml.Record.named (← Toml.parse text)
  let slots ← r.withDefault 0 "session" SlotNames.default slotsOf
  let maxDepth ← r.withDefault 1 "resolution" default.maxDepth maxDepthOf
  pure ⟨slots, maxDepth⟩

end Settings

end DiagramScope
