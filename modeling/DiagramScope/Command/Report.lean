import DiagramScope.Failure

/-!
Reports of failures, as a terminal shows them: one for each problem of a script, else a single one.
-/

set_option autoImplicit false
set_option relaxedAutoImplicit false

namespace DiagramScope.Command

structure Report where
  message : String
  code : Option String
  help : Option String
  labels : List Script.Label
  /-- The text that the labels point into. -/
  source : Option String
  deriving DecidableEq, Repr

namespace Report

/-- The code of a failure. Problems of scripts have codes of their own. -/
def codeOf : Failure → Option String
  | .file _ => some "blockctx::io"
  | .settings _ => some "blockctx::config"
  | .shape _ => some "blockctx::shape"
  | .cycle .. => some "blockctx::cycle"
  | .store _ => some "blockctx::store"
  | .session _ => some "blockctx::session"
  | .script .. => none
  | .document _ => some "blockctx::document"
  | .toml _ => some "blockctx::document"
  | .rowOutOfRange .. => some "blockctx::mask"

def helpOf : Failure → Option String
  | .cycle .. => some "check the parent_block chain, or raise resolution.max_depth"
  | .settings _ => some "pass --config with a valid file, or remove the broken one"
  | _ => none

def ofDiagnostic (source : String) (d : Script.Diagnostic) : Report :=
  ⟨d.message, d.code.map Script.Code.text, d.help, d.labels, some source⟩

def ofFailure (failure : Failure) : List Report :=
  match failure with
  | .script problems source => problems.all.map (ofDiagnostic source)
  | _ => [⟨failure.message, codeOf failure, helpOf failure, [], none⟩]

def text (r : Report) : String :=
  let code := match r.code with
    | some code => code ++ ": "
    | none => ""
  let labels := r.labels.map fun l =>
    "\n  at " ++ toString l.span.start ++ ".." ++ toString l.span.stop ++ ": " ++ l.text
  let help := match r.help with
    | some help => "\n  help: " ++ help
    | none => ""
  code ++ r.message ++ String.join labels ++ help ++ "\n"

end Report

end DiagramScope.Command
