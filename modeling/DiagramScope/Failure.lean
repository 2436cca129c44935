import DiagramScope.Except
import DiagramScope.Session
import DiagramScope.Store
import DiagramScope.Toml.Value

/-!
Everything that can go wrong above the level of a single module, with the message that reports it.
-/

set_option autoImplicit false
set_option relaxedAutoImplicit false

namespace DiagramScope

inductive FileFault where
  | missing
  | notDirectory
  | isDirectory
  | other (text : String)
  deriving DecidableEq, Repr

def FileFault.message : FileFault → String
  | missing => "No such file or directory (os error 2)"
  | notDirectory => "Not a directory (os error 20)"
  | isDirectory => "Is a directory (os error 21)"
  | other text => text

inductive SettingsFault where
  | missingFile (path : String)
  | malformed
  deriving DecidableEq, Repr

def SettingsFault.message : SettingsFault → String
  | missingFile path => "Missing configuration file: " ++ path
  | malformed => "Failed to parse TOML configuration"

inductive DocumentFault where
  | declaredTwice (node : Node)
  | maskAndExprs (node : Node)
  deriving DecidableEq, Repr

def DocumentFault.message : DocumentFault → String
  | declaredTwice node => node.text ++ " is declared twice"
  | maskAndExprs node => node.text ++ " sets both `mask` and `exprs`"

inductive Failure where
  | file (fault : FileFault)
  | settings (fault : SettingsFault)
  | shape (fault : ShapeFault)
  /-- The walk up from `start` met a block twice, or more blocks than `depth`. -/
  | cycle (start : Node) (depth : Nat)
  | store (fault : StoreFault)
  | session (fault : SessionFault)
  /-- Statements, joined to the text `source`, could not be evaluated. -/
  | script (problems : Script.Diagnostics) (source : String)
  | document (fault : DocumentFault)
  | toml (fault : Toml.Fault)
  | rowOutOfRange (index size : Nat)
  deriving DecidableEq, Repr

namespace Failure

def message : Failure → String
  | file fault => "I/O error: " ++ fault.message
  | settings fault => "configuration error: " ++ fault.message
  | shape fault => "malformed mask data: " ++ fault.message
  | cycle start depth =>
    "hierarchy above " ++ start.text ++ " does not reach a diagram within " ++ toString depth
      ++ " nodes"
  | store fault => "property store error: " ++ fault.message
  | session fault => "evaluation session error: " ++ fault.message
  | script problems _ => problems.summary
  | document fault => "invalid document: " ++ fault.message
  | toml fault => "invalid document: " ++ fault.message
  | rowOutOfRange index size =>
    "row " ++ toString index ++ " is out of range for a mask with " ++ toString size ++ " entries"

def ofStore {α : Type} (r : Except StoreFault α) : Except Failure α := r.mapError store

def ofShape {α : Type} (r : Except ShapeFault α) : Except Failure α := r.mapError shape

def ofSession {α : Type} (r : Except SessionFault α) : Except Failure α := r.mapError session

variable {α : Type}

@[simp]
theorem ofStore_eq_ok_iff {r : Except StoreFault α} {a : α} : ofStore r = .ok a ↔ r = .ok a :=
  Except.mapError_eq_ok_iff

@[simp]
theorem ofShape_eq_ok_iff {r : Except ShapeFault α} {a : α} : ofShape r = .ok a ↔ r = .ok a :=
  Except.mapError_eq_ok_iff

@[simp]
theorem ofSession_eq_ok_iff {r : Except SessionFault α} {a : α} :
    ofSession r = .ok a ↔ r = .ok a :=
  Except.mapError_eq_ok_iff

end Failure

end DiagramScope
