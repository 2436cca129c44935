import DiagramScope.Command.Report
import DiagramScope.Command.Run

/-!
The program: reads its arguments and files, writes the answer, and reports failures.
-/

set_option autoImplicit false
set_option relaxedAutoImplicit false

namespace DiagramScope.Command

/-- Reads a file of the system. A directory can be opened, but not read; a path through a file
cannot even be opened, and only then does the failure name it. -/
def readSystemFile : ReadFile IO := fun path => do
  try
    let text ← IO.FS.readFile path
    pure (.ok text)
  catch failure =>
    match failure with
    | .noFileOrDirectory .. => pure (.error .missing)
    | .inappropriateType (some _) .. => pure (.error .notDirectory)
    | .inappropriateType none .. => pure (.error .isDirectory)
    | other => pure (.error (.other (toString other)))

def userSettings : IO String := do
  match ← IO.getEnv "XDG_CONFIG_HOME" with
  | some home => pure (home ++ "/blockctx/config.toml")
  | none =>
    match ← IO.getEnv "HOME" with
    | some home => pure (home ++ "/.config/blockctx/config.toml")
    | none => pure ""

def usage : String :=
  "Usage: blockctx [OPTIONS] <DOCUMENT> <COMMAND>\n\n" ++
  "Commands: resolve, evaluate, check, mask, wire, help\n\n" ++
  "Options:\n" ++
  "  -c, --config <CONFIG>        Path to the configuration file\n" ++
  "      --log-level <LOG_LEVEL>  Log level\n" ++
  "  -h, --help                   Print help\n" ++
  "  -V, --version                Print version\n\n" ++
  "Options of resolve, evaluate, mask and wire:\n" ++
  "  -b, --block <BLOCK>          Block identifier\n" ++
  "  -d, --diagram <DIAGRAM>      Diagram identifier, used when no block is given\n\n" ++
  "Options of mask:\n" ++
  "      --rows <ROWS>            Grow or shrink the mask to this many rows\n" ++
  "      --title <TITLE>          Replace the mask title\n"

def explain : UsageFault → IO UInt32
  | .helpRequested => do IO.print usage; pure 0
  | .versionRequested => do IO.println "blockctx 0.1.0"; pure 0
  | _ => do IO.eprint usage; pure 2

end DiagramScope.Command

open DiagramScope.Command in
def main (words : List String) : IO UInt32 := do
  match parse words with
  | .error fault => explain fault
  | .ok invocation =>
    let answer ← run readSystemFile (← userSettings) invocation
    IO.print answer.output
    match answer.failure with
    | none => pure 0
    | some failure =>
      for report in Report.ofFailure failure do
        IO.eprint report.text
      pure 1
