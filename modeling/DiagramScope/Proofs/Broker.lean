import DiagramScope.Broker
import DiagramScope.Proofs.OrderedMap

/-!
Evaluating with a broker. Main statements: statements that can be evaluated are captured and read
back, others leave the variables that were read last; a free broker that evaluates at a node changes
nothing if it fails; and where it can evaluate the statements in effect there, it gives exactly the
variables that they assign.
-/

set_option autoImplicit false
set_option relaxedAutoImplicit false

namespace DiagramScope

open Script (Bindings Diagnostics)

/-- Whether the slots of a session can hold statements, names and values apart. -/
structure SlotNames.Distinct (names : SlotNames) : Prop where
  context : names.context ≠ ""
  values : names.names ≠ names.values

theorem SlotNames.distinct_default : SlotNames.default.Distinct := ⟨by decide, by decide⟩

namespace Session

def holding (s : Session) (slot : String) (lines : List String) : Session :=
  { s with slots := s.slots.insert slot (.strings lines) }

private theorem statements_holding (s : Session) (slot : String) (lines : List String) :
    (s.holding slot lines).statements slot = .ok lines := by
  unfold statements holding
  simp only [OrderedMap.get?_insert_self]

theorem captured?_capture (s : Session) {names : SlotNames} (hnames : names.Distinct)
    (bound : Bindings) : (s.capture names bound).captured? names = some bound := by
  unfold captured? capture read
  simp only [OrderedMap.get?_insert_of_ne _ hnames.values, OrderedMap.get?_insert_self]
  rw [OrderedMap.keys_zip_values, OrderedMap.ofList_entries]

private theorem submit_of_evaluates {s : Session} {names : SlotNames} {lines : List String}
    {bound : Bindings} (hlines : s.statements names.context = .ok lines)
    (h : s.interpreter.evaluateLines lines = .ok bound) :
    s.submit names = .ok (s.capture names bound) := by
  refine Except.bind_eq_ok_iff.2 ⟨lines, hlines, ?_⟩
  rw [h]
  rfl

private theorem submit_of_fails {s : Session} {names : SlotNames} {lines : List String}
    {problems : Diagnostics} (hlines : s.statements names.context = .ok lines)
    (h : s.interpreter.evaluateLines lines = .error problems) :
    s.submit names = .error (.evaluation problems) := by
  simp only [submit, hlines, bind, Except.bind, h]
  rfl

end Session

namespace Broker

variable {b b' : Broker} {bound : Bindings} {lines : List String}

def holding (b : Broker) (lines : List String) : Broker :=
  { b with session := b.session.holding b.slots.context lines }

def capturing (b : Broker) (bound : Bindings) : Broker :=
  { b with session := b.session.capture b.slots bound }

section ReadContext

theorem readContext_of_some (h : b.session.captured? b.slots = some bound) :
    b.readContext = ({ b with lastRead := bound }, bound) := by
  unfold readContext
  rw [h]

theorem readContext_of_none (h : b.session.captured? b.slots = none) :
    b.readContext = (b, .empty) := by
  unfold readContext
  rw [h]

end ReadContext

section EvaluateContext

theorem writeContext_of_ne_empty (h : b.slots.context ≠ "") (lines : List String) :
    b.writeContext lines = .ok (b.holding lines) := by
  unfold writeContext Session.writeLines
  rw [if_neg h]
  rfl

private theorem writeContext_of_empty (h : b.slots.context = "") (lines : List String) :
    b.writeContext lines = .error .emptySlotName := by
  unfold writeContext Session.writeLines
  rw [if_pos h]
  rfl

theorem evaluateContext_of_empty (h : b.slots.context = "") (lines : List String) :
    b.evaluateContext lines = .error .emptySlotName := by
  unfold evaluateContext
  rw [writeContext_of_empty h]
  rfl

theorem evaluateContext_of_ok (h : b.slots.context ≠ "")
    (hlines : b.session.interpreter.evaluateLines lines = .ok bound) :
    b.evaluateContext lines = .ok ((b.holding lines).capturing bound).readContext := by
  have hsubmit : (b.holding lines).session.submit (b.holding lines).slots =
      .ok ((b.holding lines).session.capture b.slots bound) :=
    Session.submit_of_evaluates (b.session.statements_holding b.slots.context lines) hlines
  refine Except.bind_eq_ok_iff.2 ⟨b.holding lines, writeContext_of_ne_empty h lines, ?_⟩
  rw [hsubmit]
  rfl

/-- Where statements cannot be evaluated, the variables read last stand in for theirs. -/
theorem evaluateContext_of_error (h : b.slots.context ≠ "") {problems : Diagnostics}
    (hlines : b.session.interpreter.evaluateLines lines = .error problems) :
    b.evaluateContext lines = .ok (b.holding lines, b.lastRead) := by
  have hsubmit : (b.holding lines).session.submit (b.holding lines).slots =
      .error (.evaluation problems) :=
    Session.submit_of_fails (b.session.statements_holding b.slots.context lines) hlines
  refine Except.bind_eq_ok_iff.2 ⟨b.holding lines, writeContext_of_ne_empty h lines, ?_⟩
  rw [hsubmit]
  rfl

theorem exists_evaluateContext (h : b.slots.context ≠ "") (lines : List String) :
    ∃ b' bound, b.evaluateContext lines = .ok (b', bound) := by
  cases hlines : b.session.interpreter.evaluateLines lines with
  | ok bound => exact ⟨_, _, evaluateContext_of_ok h hlines⟩
  | error problems => exact ⟨_, _, evaluateContext_of_error h hlines⟩

/-- What evaluation keeps: the slots, the global variables, and whether somebody has the session. -/
structure Alike (b b' : Broker) : Prop where
  slots : b'.slots = b.slots
  interpreter : b'.session.interpreter = b.session.interpreter
  held : b'.held = b.held

theorem alike_readContext (b : Broker) : b.Alike b.readContext.1 := by
  unfold readContext
  split
  · exact ⟨rfl, rfl, rfl⟩
  · exact ⟨rfl, rfl, rfl⟩

theorem alike_of_evaluateContext (h : b.evaluateContext lines = .ok (b', bound)) : b.Alike b' := by
  by_cases hcontext : b.slots.context = ""
  · rw [evaluateContext_of_empty hcontext] at h
    cases h
  · cases hlines : b.session.interpreter.evaluateLines lines with
    | ok found =>
      rw [evaluateContext_of_ok hcontext hlines] at h
      have hread := alike_readContext ((b.holding lines).capturing found)
      rw [Except.ok.inj h] at hread
      exact ⟨hread.slots, hread.interpreter, hread.held⟩
    | error problems =>
      rw [evaluateContext_of_error hcontext hlines] at h
      cases h
      exact ⟨rfl, rfl, rfl⟩

/-- Where the slots hold statements, names and values apart, the variables that are read back are
those that the statements assign. -/
theorem evaluateContext_of_evaluates (hslots : b.slots.Distinct)
    (h : b.session.interpreter.evaluateLines lines = .ok bound) :
    b.evaluateContext lines =
      .ok ({ (b.holding lines).capturing bound with lastRead := bound }, bound) := by
  have hread : ((b.holding lines).capturing bound).session.captured? b.slots = some bound :=
    (b.holding lines).session.captured?_capture hslots bound
  rw [evaluateContext_of_ok hslots.context h, readContext_of_some hread]

end EvaluateContext

section EvaluateAt

variable {p : Properties} {maxDepth : Nat} {node : Node}

private theorem readContext_held (b : Broker) (held : Bool) :
    ({ b with held } : Broker).readContext = ({ b.readContext.1 with held }, b.readContext.2) := by
  unfold readContext
  cases b.session.captured? b.slots <;> rfl

private theorem evaluateContext_held (b : Broker) (held : Bool) (lines : List String) :
    ({ b with held } : Broker).evaluateContext lines =
      (b.evaluateContext lines).map fun result => ({ result.1 with held }, result.2) := by
  by_cases hcontext : b.slots.context = ""
  · rw [evaluateContext_of_empty hcontext, evaluateContext_of_empty (b := { b with held }) hcontext]
    rfl
  · cases hlines : b.session.interpreter.evaluateLines lines with
    | error problems =>
      rw [evaluateContext_of_error hcontext hlines,
        evaluateContext_of_error (b := { b with held }) hcontext hlines]
      rfl
    | ok bound =>
      rw [evaluateContext_of_ok hcontext hlines,
        evaluateContext_of_ok (b := { b with held }) hcontext hlines]
      exact congrArg Except.ok (readContext_held ((b.holding lines).capturing bound) held)

theorem evaluateNode_eq_ok_iff :
    b.evaluateNode p maxDepth node = .ok (b', bound) ↔
      ∃ statements, Resolution.resolve p maxDepth node = .ok statements ∧
        b.evaluateContext statements = .ok (b', bound) := by
  unfold evaluateNode
  simp only [Except.bind_eq_ok_iff, Failure.ofSession_eq_ok_iff]

private theorem evaluateNode_held (b : Broker) (held : Bool) (p : Properties) (maxDepth : Nat)
    (node : Node) :
    ({ b with held } : Broker).evaluateNode p maxDepth node =
      (b.evaluateNode p maxDepth node).map fun result => ({ result.1 with held }, result.2) := by
  unfold evaluateNode
  cases Resolution.resolve p maxDepth node with
  | error failure => rfl
  | ok statements =>
    change Failure.ofSession (({ b with held } : Broker).evaluateContext statements) =
      (Failure.ofSession (b.evaluateContext statements)).map _
    rw [evaluateContext_held]
    cases b.evaluateContext statements <;> rfl

theorem alike_of_evaluateNode (h : b.evaluateNode p maxDepth node = .ok (b', bound)) :
    b.Alike b' := by
  obtain ⟨statements, -, hevaluate⟩ := evaluateNode_eq_ok_iff.1 h
  exact alike_of_evaluateContext hevaluate

theorem evaluateAt_of_held (h : b.held = true) (p : Properties) (maxDepth : Nat) (node : Node) :
    b.evaluateAt p maxDepth node = (b, .ok none) := by
  unfold evaluateAt tryAcquire
  simp only [h, if_true]

theorem evaluateAt_of_free (h : b.held = false) (p : Properties) (maxDepth : Nat) (node : Node) :
    b.evaluateAt p maxDepth node =
      match b.evaluateNode p maxDepth node with
      | .ok (b', bound) => (b', .ok (some bound))
      | .error failure => (b, .error failure) := by
  have hsame (b' : Broker) (hb' : b'.held = b.held) : { b' with held := false } = b' := by
    cases b'
    simp_all
  unfold evaluateAt tryAcquire
  simp only [h, Bool.false_eq_true, if_false, evaluateNode_held b true]
  cases hnode : b.evaluateNode p maxDepth node with
  | error failure => exact congrArg (·, _) (hsame b rfl)
  | ok result => exact congrArg (·, _) (hsame result.1 (alike_of_evaluateNode hnode).held)

theorem evaluateAt_of_evaluates (hfree : b.held = false) (hslots : b.slots.Distinct)
    {statements : List String} (hresolve : Resolution.resolve p maxDepth node = .ok statements)
    (h : b.session.interpreter.evaluateLines statements = .ok bound) :
    ∃ b', b.evaluateAt p maxDepth node = (b', .ok (some bound)) := by
  have hcontext := evaluateContext_of_evaluates hslots h
  have hnode := evaluateNode_eq_ok_iff.2 ⟨statements, hresolve, hcontext⟩
  exact ⟨_, by rw [evaluateAt_of_free hfree, hnode]⟩

end EvaluateAt

end Broker

end DiagramScope
