import DiagramScope.Command.Run
import DiagramScope.Proofs.Customization.Context
import DiagramScope.Proofs.Script.Evaluation.Naming
import DiagramScope.Proofs.Script.Evaluation.Preservation

/-!
The two commands that evaluate contexts. Main statement: evaluating at a node writes nothing if it
fails, and else one line for each variable; checking a document fails if and only if evaluating
fails at a node, with the failure of the first such node, and writes one line for each node before
it, which counts the lines that evaluating writes there.
-/

set_option autoImplicit false
set_option relaxedAutoImplicit false

namespace DiagramScope.Command

open Script (OneLine)

section Lines

/-- The lines of characters behind those that were read of the first line. A line feed ends a line;
what stands behind the last one is a line only if it is not empty. -/
def linesBehind (read : List Char) : List Char → List String
  | [] => if read.isEmpty then [] else [String.ofList read]
  | c :: rest =>
    if c = '\n' then String.ofList read :: linesBehind [] rest else linesBehind (read ++ [c]) rest

def linesOf (s : String) : List String := linesBehind [] s.toList

private theorem linesBehind_append {line : List Char} (h : ∀ c ∈ line, c ≠ '\n')
    (read rest : List Char) : linesBehind read (line ++ '\n' :: rest) =
      String.ofList (read ++ line) :: linesBehind [] rest := by
  induction line generalizing read with
  | nil => simp [linesBehind]
  | cons c more ih =>
    obtain ⟨hc, hmore⟩ := List.forall_mem_cons.1 h
    rw [List.cons_append, linesBehind, if_neg hc, ih hmore, List.append_assoc,
      List.singleton_append]

private theorem ne_lineFeed_of_oneLine {line : String} (h : OneLine line) :
    ∀ c ∈ line.toList, c ≠ '\n' := by
  rintro c hc rfl
  have hline : Text.Quoted.isLineEnd '\n' = false := h '\n' hc
  cases hline

private theorem display_cons (line : String) (rest : List String) :
    Resolution.display (line :: rest) = line ++ "\n" ++ Resolution.display rest := by
  rw [Resolution.display, List.map_cons, String.join_cons, Resolution.display]

/-- Lines that are written one below the other are read off as they are. -/
theorem linesOf_display {lines : List String} (h : ∀ line ∈ lines, OneLine line) :
    linesOf (Resolution.display lines) = lines := by
  induction lines with
  | nil => rfl
  | cons line rest ih =>
    obtain ⟨hline, hrest⟩ := List.forall_mem_cons.1 h
    have hcut := linesBehind_append (ne_lineFeed_of_oneLine hline) []
      (Resolution.display rest).toList
    have htext : (Resolution.display (line :: rest)).toList =
        line.toList ++ '\n' :: (Resolution.display rest).toList := by
      simp [display_cons, String.toList_append]
    rw [linesOf, htext, hcut, List.nil_append, String.ofList_toList, ← linesOf, ih hrest]

example : linesOf "a = 1\n\nb = 2\n" = ["a = 1", "", "b = 2"] := by decide

end Lines

namespace Answer

def lines (a : Answer) : List String := linesOf a.output

/-- A command wrote exactly these lines, each of which is a line and no more. -/
structure Wrote (a : Answer) (lines : List String) : Prop where
  output : a.output = Resolution.display lines
  oneLine : ∀ line ∈ lines, OneLine line
  lines : a.lines = lines

private theorem wrote_of_output {a : Answer} {lines : List String}
    (houtput : a.output = Resolution.display lines) (h : ∀ line ∈ lines, OneLine line) :
    a.Wrote lines := by
  refine ⟨houtput, h, ?_⟩
  rw [Answer.lines, houtput, linesOf_display h]

end Answer

def NodeChoice.ofNode (node : Node) : NodeChoice :=
  match node.kind with
  | .block => ⟨some node.id, 1⟩
  | .diagram => ⟨none, node.id⟩

@[simp]
private theorem NodeChoice.node_ofNode (node : Node) : (ofNode node).node = node := by
  obtain ⟨kind, id⟩ := node
  cases kind <;> rfl

def variableText (e : String × Script.Value) : String := e.1 ++ " = " ++ e.2.display

def checkText (node : Node) (count : Nat) : String :=
  node.text ++ ": ok (" ++ toString count ++ " variables)"

/-- The variables of a node: those that its statements assign in a fresh interpreter, in the order
in which these first assign them. -/
def VariablesAt (settings : Settings) (s : Store) (node : Node) (bound : Script.Bindings) : Prop :=
  ∃ statements, Resolution.resolve s.properties settings.maxDepth node = .ok statements ∧
    Script.Interpreter.fresh.evaluateLines statements = .ok bound ∧
      ∃ program, Script.parse (Script.joinLines statements) = .ok program ∧
        bound.keys = (Script.targets program).eraseDups

section Texts

private theorem checkLine_eq (node : Node) (count : Nat) :
    checkLine node count = checkText node count ++ "\n" := by
  have hend : " variables)\n" = " variables)" ++ "\n" := rfl
  rw [checkLine, checkText, hend, ← String.append_assoc]

private theorem oneLine_toString (n : Nat) : OneLine (toString n) := by
  intro c hc
  rw [Nat.toString_eq_repr, Nat.toList_repr] at hc
  exact Script.Value.isLineEnd_of_isDigit (Nat.isDigit_of_mem_toDigits (by decide) (by decide) hc)

private theorem oneLine_checkText (node : Node) (count : Nat) : OneLine (checkText node count) := by
  have hkind : OneLine node.kind.text := by
    cases node.kind <;> simp [NodeKind.text, OneLine, Text.Quoted.isLineEnd]
  have hhash : OneLine "#" := by simp [OneLine, Text.Quoted.isLineEnd]
  have hok : OneLine ": ok (" := by simp [OneLine, Text.Quoted.isLineEnd]
  have hend : OneLine " variables)" := by simp [OneLine, Text.Quoted.isLineEnd]
  have hnode : OneLine node.text :=
    Script.oneLine_append (Script.oneLine_append hkind hhash) (oneLine_toString node.id)
  exact Script.oneLine_append (Script.oneLine_append (Script.oneLine_append hnode hok)
    (oneLine_toString count)) hend

private theorem oneLine_variableText {bound : Script.Bindings} (h : Script.Assignable bound)
    {e : String × Script.Value} (he : e ∈ bound.entries) : OneLine (variableText e) := by
  have hname : OneLine e.1 := (h.isName e.1 (List.mem_map_of_mem he)).oneLine
  have hvalue : OneLine e.2.display :=
    (h.canonical e.1 e.2 (OrderedMap.get?_of_mem_entries he)).oneLine_display
  have hequals : OneLine " = " := by simp [OneLine, Text.Quoted.isLineEnd]
  exact Script.oneLine_append (Script.oneLine_append hname hequals) hvalue

end Texts

section Commands

variable {settings : Settings} {s : Store} {node : Node} {bound : Script.Bindings}
  {failure : Failure}

def evaluateAt (settings : Settings) (s : Store) (node : Node) : Answer :=
  perform settings s (.evaluate (.ofNode node))

private theorem perform_evaluate (settings : Settings) (s : Store) (choice : NodeChoice) :
    perform settings s (.evaluate choice) = evaluateAt settings s choice.node := by
  rw [evaluateAt, perform, perform, NodeChoice.node_ofNode]

private theorem evaluateAt_of_error
    (h : Resolution.checkAt s.properties settings.maxDepth node = .error failure) :
    evaluateAt settings s node = .failed failure := by
  rw [evaluateAt, perform, NodeChoice.node_ofNode, evaluate, h]
  rfl

private theorem evaluateAt_of_ok
    (h : Resolution.checkAt s.properties settings.maxDepth node = .ok bound) :
    evaluateAt settings s node =
      ⟨Resolution.display (bound.entries.map variableText), none⟩ := by
  rw [evaluateAt, perform, NodeChoice.node_ofNode, evaluate, h, Resolution.display, List.map_map]
  rfl

private theorem wrote_evaluateAt
    (h : Resolution.checkAt s.properties settings.maxDepth node = .ok bound) :
    (evaluateAt settings s node).Wrote (bound.entries.map variableText) := by
  obtain ⟨statements, -, hevaluate⟩ := Resolution.checkAt_eq_ok_iff.1 h
  apply Answer.wrote_of_output
  · rw [evaluateAt_of_ok h]
  · intro line hline
    obtain ⟨e, he, rfl⟩ := List.mem_map.1 hline
    exact oneLine_variableText (Script.assignable_of_evaluateLines hevaluate) he

private theorem variablesAt_of_ok
    (h : Resolution.checkAt s.properties settings.maxDepth node = .ok bound) :
    VariablesAt settings s node bound := by
  obtain ⟨statements, hresolve, hevaluate⟩ := Resolution.checkAt_eq_ok_iff.1 h
  exact ⟨statements, hresolve, hevaluate, Script.keys_evaluateLines hevaluate⟩

/-- The line about a node counts the lines that evaluating writes there. -/
def countText (settings : Settings) (s : Store) (node : Node) : String :=
  checkText node (evaluateAt settings s node).lines.length

private theorem checkLine_of_ok
    (h : Resolution.checkAt s.properties settings.maxDepth node = .ok bound) :
    checkLine node bound.size = countText settings s node ++ "\n" := by
  have hlength : (evaluateAt settings s node).lines.length = bound.size := by
    rw [(wrote_evaluateAt h).lines, List.length_map]
    rfl
  rw [checkLine_eq, countText, hlength]

/-- Checking nodes is evaluating at one after the other up to the first failure. -/
theorem check_eq (settings : Settings) (s : Store) (nodes : List Node) :
    check s.properties settings.maxDepth nodes =
      ⟨Resolution.display ((nodes.takeWhile fun node =>
          (evaluateAt settings s node).failure.isNone).map (countText settings s)),
        nodes.findSome? fun node => (evaluateAt settings s node).failure⟩ := by
  induction nodes with
  | nil => rfl
  | cons node rest ih =>
    cases hcheck : Resolution.checkAt s.properties settings.maxDepth node with
    | error failure =>
      have hfailure : (evaluateAt settings s node).failure = some failure := by
        rw [evaluateAt_of_error hcheck]
        rfl
      rw [check, hcheck, List.findSome?_cons, List.takeWhile_cons, hfailure]
      rfl
    | ok bound =>
      have hfailure : (evaluateAt settings s node).failure = none := by
        rw [evaluateAt_of_ok hcheck]
      rw [check, hcheck, List.findSome?_cons, List.takeWhile_cons, hfailure]
      simp only [ih, checkLine_of_ok hcheck, Option.isNone_none, if_true, List.map_cons,
        display_cons]

end Commands

/-- The commands that evaluate and that check agree on a store. -/
structure Agreement (settings : Settings) (s : Store) : Prop where
  /-- Evaluating fails and writes nothing, or it writes one line for each variable, in order. -/
  evaluates : ∀ choice,
    (∃ failure, perform settings s (.evaluate choice) = ⟨"", some failure⟩) ∨
      ∃ bound, VariablesAt settings s choice.node bound ∧
        (perform settings s (.evaluate choice)).failure = none ∧
          (perform settings s (.evaluate choice)).Wrote
            (bound.entries.map fun e => e.1 ++ " = " ++ e.2.display)
  /-- Checking fails if evaluating fails at some node. -/
  fails : (perform settings s .check).failure.isSome ↔
    ∃ node ∈ s.nodeList, (evaluateAt settings s node).failure.isSome
  /-- The failure is that of the first of these nodes. -/
  failure : (perform settings s .check).failure =
    s.nodeList.findSome? fun node => (evaluateAt settings s node).failure
  /-- Checking writes one line for each node before it. -/
  writes : (perform settings s .check).Wrote
    ((s.nodeList.takeWhile fun node => (evaluateAt settings s node).failure.isNone).map
      fun node => node.text ++ ": ok (" ++
        toString (evaluateAt settings s node).lines.length ++ " variables)")

theorem check_and_evaluate_agree (settings : Settings) (s : Store) : Agreement settings s := by
  have hcheck : perform settings s .check = _ := check_eq settings s s.nodeList
  constructor
  · intro choice
    rw [perform_evaluate]
    cases h : Resolution.checkAt s.properties settings.maxDepth choice.node with
    | error failure => exact .inl ⟨failure, evaluateAt_of_error h⟩
    | ok bound =>
      refine .inr ⟨bound, variablesAt_of_ok h, ?_, wrote_evaluateAt h⟩
      rw [evaluateAt_of_ok h]
  · rw [hcheck]
    exact List.findSome?_isSome_iff
  · rw [hcheck]
  · apply Answer.wrote_of_output
    · rw [hcheck]
      rfl
    · intro line hline
      obtain ⟨node, -, rfl⟩ := List.mem_map.1 hline
      exact oneLine_checkText node _

end DiagramScope.Command
