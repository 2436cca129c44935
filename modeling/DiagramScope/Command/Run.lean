import DiagramScope.Command.Arguments
import DiagramScope.Customization
import DiagramScope.Document
import DiagramScope.Files
import DiagramScope.Settings
import DiagramScope.Wire.Text

/-!
Carrying out a command: finding the settings, loading the document, and writing the answer. What was
written before a failure stays written.
-/

set_option autoImplicit false
set_option relaxedAutoImplicit false

namespace DiagramScope.Command

structure Answer where
  output : String
  failure : Option Failure

namespace Answer

def failed (failure : Failure) : Answer := ⟨"", some failure⟩

/-- The answer of a command that writes at its end, or not at all. -/
def ofExcept : Except Failure String → Answer
  | .ok output => ⟨output, none⟩
  | .error failure => failed failure

end Answer

def variableLine (name : String) (value : Script.Value) : String :=
  name ++ " = " ++ value.display ++ "\n"

def evaluate (p : Properties) (maxDepth : Nat) (node : Node) : Except Failure String := do
  let bound ← Resolution.checkAt p maxDepth node
  pure (String.join (bound.entries.map fun e => variableLine e.1 e.2))

def checkLine (node : Node) (count : Nat) : String :=
  node.text ++ ": ok (" ++ toString count ++ " variables)\n"

def check (p : Properties) (maxDepth : Nat) : List Node → Answer
  | [] => ⟨"", none⟩
  | node :: rest =>
    match Resolution.checkAt p maxDepth node with
    | .error failure => .failed failure
    | .ok bound =>
      let more := check p maxDepth rest
      ⟨checkLine node bound.size ++ more.output, more.failure⟩

def entryLine (e : Mask.Entry) : String := e.assignment ++ "  # " ++ e.description ++ "\n"

def maskText (m : Mask) : String :=
  "# " ++ m.title ++ "\n" ++ String.join (m.entries.map entryLine)

def mask (settings : Settings) (p : Properties) (node : Node) (rows : Option Nat)
    (title : Option String) : Except Failure String := do
  match ← (Customization.openMask (.fresh settings.slots) p settings.maxDepth node).2 with
  | none => throw (.session .busy)
  | some c =>
    let c := match rows with
      | some count => c.setRowCount count
      | none => c
    let c := match title with
      | some title => c.setTitle title
      | none => c
    pure (maskText c.mask)

def wire (p : Properties) (node : Node) : Except Failure String := do
  match ← Failure.ofStore (p.maskExprs node) with
  | none => pure "# no mask data\n"
  | some w => pure w.toToml

def perform (settings : Settings) (s : Store) : Action → Answer
  | .resolve choice => .ofExcept <|
    (Resolution.resolve s.properties settings.maxDepth choice.node).map Resolution.display
  | .evaluate choice => .ofExcept (evaluate s.properties settings.maxDepth choice.node)
  | .check => check s.properties settings.maxDepth s.nodeList
  | .mask choice rows title => .ofExcept (mask settings s.properties choice.node rows title)
  | .wire choice => .ofExcept (wire s.properties choice.node)

section Loading

variable {m : Type → Type} [Monad m]

def localSettings : String := "blockctx/config.toml"

def settingsOf (text : String) : Except Failure Settings :=
  (Settings.parse text).mapError fun _ => .settings .malformed

def settingsAt (read : ReadFile m) (path : String) : m (Except Failure Settings) := do
  match ← read path with
  | .ok text => pure (settingsOf text)
  | .error fault =>
    if fault.isAbsent then pure (.error (.settings (.missingFile path)))
    else pure (.error (.file fault))

/-- Settings at the first path that names something, or else the default. -/
def settingsAmong (read : ReadFile m) : List String → m (Except Failure Settings)
  | [] => pure (.ok .default)
  | path :: rest => do
    match ← read path with
    | .ok text => pure (settingsOf text)
    | .error fault =>
      if fault.isAbsent then settingsAmong read rest else pure (.error (.file fault))

/-- The settings: at the given path, else in the working directory, else at the path `shared`. -/
def findSettings (read : ReadFile m) (shared : String) :
    (given : Option String) → m (Except Failure Settings)
  | some path => settingsAt read path
  | none => settingsAmong read [localSettings, shared]

def loadDocument (read : ReadFile m) (path : String) : m (Except Failure Store) := do
  match ← read path with
  | .ok text => pure (Document.parse text)
  | .error fault => pure (.error (.file fault))

/-- Carries out an invocation: settings, then document, then action. -/
def run (read : ReadFile m) (shared : String) (i : Invocation) : m Answer := do
  match ← findSettings read shared i.settings with
  | .error failure => pure (.failed failure)
  | .ok settings =>
    match ← loadDocument read i.document with
    | .error failure => pure (.failed failure)
    | .ok store => pure (perform settings store i.action)

end Loading

end DiagramScope.Command
