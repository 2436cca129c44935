import DiagramScope.Proofs.Broker.Lending

/-!
What a broker gives in the course of a run. Main statement: evaluating through a broker gives what
evaluating directly gives, and where that fails, and whenever the variables are read, what the last
successful evaluation gave.
-/

set_option autoImplicit false
set_option relaxedAutoImplicit false

namespace DiagramScope

open Script (Bindings Interpreter)

/-- Whether the three slots of a session are different and statements can be written. -/
structure SlotNames.Apart (names : SlotNames) : Prop extends names.Distinct where
  names_ne_context : names.names ≠ names.context
  values_ne_context : names.values ≠ names.context

theorem SlotNames.apart_default : SlotNames.default.Apart :=
  ⟨distinct_default, by decide, by decide⟩

namespace Broker

variable {b : Broker} {i : Interpreter} {slots : SlotNames} {current : Bindings}

/-- The variables that a direct evaluation of lines gives, or others if it fails. -/
def directly (i : Interpreter) (lines : List String) (otherwise : Bindings) : Bindings :=
  match i.evaluateLines lines with
  | .ok bound => bound
  | .error _ => otherwise

/-- Whether a broker has the interpreter and the slots, and keeps the variables both in the slots
and as those read last. Before any are captured, there are none. -/
structure Remembers (b : Broker) (i : Interpreter) (slots : SlotNames) (current : Bindings) :
    Prop where
  interpreter : b.session.interpreter = i
  slots : b.slots = slots
  lastRead : b.lastRead = current
  captured : (b.session.captured? b.slots).getD .empty = current

private theorem remembers_ofSession (i : Interpreter) (slots : SlotNames) :
    (ofSession ⟨i, .empty⟩ slots).Remembers i slots .empty :=
  ⟨rfl, rfl, rfl, rfl⟩

namespace Remembers

private theorem withHeld (h : b.Remembers i slots current) (held : Bool) :
    ({ b with held } : Broker).Remembers i slots current :=
  ⟨h.interpreter, h.slots, h.lastRead, h.captured⟩

private theorem readContext (h : b.Remembers i slots current) :
    b.readContext.2 = current ∧ b.readContext.1.Remembers i slots current := by
  have hcaptured := h.captured
  cases hread : b.session.captured? b.slots with
  | none =>
    rw [hread] at hcaptured
    rw [readContext_of_none hread]
    exact ⟨hcaptured, h⟩
  | some bound =>
    rw [hread] at hcaptured
    obtain rfl : bound = current := hcaptured
    rw [readContext_of_some hread]
    exact ⟨rfl, h.interpreter, h.slots, rfl, h.captured⟩

private theorem holding (h : b.Remembers i slots current) (hslots : slots.Apart)
    (lines : List String) : (b.holding lines).Remembers i slots current := by
  refine ⟨h.interpreter, h.slots, h.lastRead, ?_⟩
  have hapart : b.slots.Apart := h.slots ▸ hslots
  have hsame : (b.holding lines).session.captured? b.slots = b.session.captured? b.slots := by
    unfold Session.captured? Session.read Broker.holding Session.holding
    simp only [OrderedMap.get?_insert_of_ne _ hapart.names_ne_context,
      OrderedMap.get?_insert_of_ne _ hapart.values_ne_context]
  exact (congrArg (·.getD .empty) hsame).trans h.captured

private theorem exists_evaluateContext (h : b.Remembers i slots current) (hslots : slots.Apart)
    (lines : List String) :
    ∃ b', b.evaluateContext lines = .ok (b', directly i lines current) ∧
      b'.Remembers i slots (directly i lines current) := by
  have hapart : b.slots.Apart := h.slots ▸ hslots
  unfold directly
  cases hlines : i.evaluateLines lines with
  | error problems =>
    refine ⟨b.holding lines, ?_, h.holding hslots lines⟩
    rw [evaluateContext_of_error hapart.context (h.interpreter ▸ hlines), h.lastRead]
  | ok bound =>
    have hevaluate := evaluateContext_of_evaluates hapart.toDistinct (h.interpreter ▸ hlines)
    have hcaptured := (b.holding lines).session.captured?_capture hapart.toDistinct bound
    exact ⟨_, hevaluate, h.interpreter, h.slots, rfl, congrArg (·.getD .empty) hcaptured⟩

end Remembers

end Broker

namespace Lending

open Broker (directly)

/-- A request that evaluates at a node: for its variables alone, or to open its mask. -/
inductive Request.AtNode (p : Properties) (maxDepth : Nat) (node : Node) : Request → Prop where
  | evaluateAt : AtNode p maxDepth node (.evaluateAt p maxDepth node)
  | openMask : AtNode p maxDepth node (.openMask p maxDepth node)

def Request.statements? : Request → Option (List String)
  | .evaluateContext _ lines => some lines
  | .evaluateAt p maxDepth node => (Resolution.resolve p maxDepth node).toOption
  | .openMask p maxDepth node => (Resolution.resolve p maxDepth node).toOption
  | _ => none

theorem Request.AtNode.statements?_eq {p : Properties} {maxDepth : Nat} {node : Node}
    {request : Request} (h : request.AtNode p maxDepth node) :
    request.statements? = (Resolution.resolve p maxDepth node).toOption := by
  cases h <;> rfl

def Reply.variables? : Reply → Option Bindings
  | .variables bound => some bound
  | .opened customization => some customization.context
  | _ => none

/-- What a successful evaluation gave. There is nothing if a request was none or was turned away, or
if evaluating its statements fails. -/
def evaluated? (i : Interpreter) (event : Request × Reply) : Option Bindings :=
  match event.1.statements?.map i.evaluateLines with
  | some (.ok _) => event.2.variables?
  | _ => none

/-- What the last successful evaluation gave, or no variables if there was none. -/
def latest (i : Interpreter) (events : List (Request × Reply)) : Bindings :=
  (events.filterMap (evaluated? i)).getLast?.getD .empty

def history (s : Lending) : List Request → List (Request × Reply)
  | [] => []
  | request :: requests => (request, (s.serve request).2) :: (s.serve request).1.history requests

/-- What every request of a run keeps, of the state and of what happened so far, the run keeps. -/
theorem preserves_serveAll {P : Lending → List (Request × Reply) → Prop} {requests : List Request}
    (hstep : ∀ request ∈ requests, ∀ s events, P s events →
      P (s.serve request).1 (events ++ [(request, (s.serve request).2)]))
    {s : Lending} {events : List (Request × Reply)} (h : P s events) :
    P (s.serveAll requests) (events ++ s.history requests) := by
  induction requests generalizing s events with
  | nil =>
    rw [history, List.append_nil]
    exact h
  | cons request requests ih =>
    obtain ⟨hfirst, hmore⟩ := List.forall_mem_cons.1 hstep
    have hrun := ih hmore (hfirst s events h)
    rw [List.append_assoc] at hrun
    exact hrun

/-- What a broker gives behind a history: where a handle is live, evaluating gives what evaluating
directly gives, or else what the last successful evaluation gave; reading gives the latter;
statements can be written. No request but a successful evaluation changes what reading gives. -/
structure Refines (s : Lending) (i : Interpreter) (events : List (Request × Reply)) : Prop where
  interpreter : s.broker.session.interpreter = i
  evaluateContext : ∀ handle ∈ s.live, ∀ lines,
    (s.serve (.evaluateContext handle lines)).2 = .variables (directly i lines (latest i events))
  readContext : ∀ handle ∈ s.live,
    (s.serve (.readContext handle)).2 = .variables (latest i events)
  writeContext : ∀ handle ∈ s.live, ∀ lines, (s.serve (.writeContext handle lines)).2 = .done
  unchanged : ∀ request, evaluated? i (request, (s.serve request).2) = none →
    (s.serve request).1.broker.readContext.2 = s.broker.readContext.2

section Step

variable {s : Lending} {i : Interpreter} {slots : SlotNames} {current : Bindings}
  {request : Request} {result : Lending × Reply}

theorem latest_concat (events : List (Request × Reply)) (event : Request × Reply) :
    latest i (events ++ [event]) = (evaluated? i event).getD (latest i events) := by
  unfold latest
  rw [List.filterMap_append]
  cases hevent : evaluated? i event <;> simp [hevent]

theorem evaluated?_of_no_variables {reply : Reply} (h : reply.variables? = none) :
    evaluated? i (request, reply) = none := by
  unfold evaluated?
  split
  · exact h
  · rfl

theorem evaluated?_of_statements {lines : List String} (h : request.statements? = some lines)
    (reply : Reply) :
    evaluated? i (request, reply) =
      match i.evaluateLines lines with
      | .ok _ => reply.variables?
      | .error _ => none := by
  unfold evaluated?
  rw [h, Option.map_some]
  cases i.evaluateLines lines <;> rfl

/-- Whether the broker behind a request keeps what the last successful evaluation gave, given what
it was before the request. -/
def Keeps (i : Interpreter) (slots : SlotNames) (current : Bindings) (request : Request)
    (result : Lending × Reply) : Prop :=
  result.1.broker.Remembers i slots ((evaluated? i (request, result.2)).getD current)

private theorem keeps_of_none (hnone : evaluated? i (request, result.2) = none)
    (h : result.1.broker.Remembers i slots current) : Keeps i slots current request result := by
  unfold Keeps
  rw [hnone]
  exact h

private theorem keeps_of_no_variables (hreply : result.2.variables? = none)
    (h : result.1.broker.Remembers i slots current) : Keeps i slots current request result :=
  keeps_of_none (evaluated?_of_no_variables hreply) h

private theorem keeps_of_evaluates {lines : List String}
    (hrequest : request.statements? = some lines)
    (hreply : result.2.variables? = some (directly i lines current))
    (h : result.1.broker.Remembers i slots (directly i lines current)) :
    Keeps i slots current request result := by
  have hlatest : (evaluated? i (request, result.2)).getD current = directly i lines current := by
    rw [evaluated?_of_statements hrequest]
    unfold directly at hreply ⊢
    cases hlines : i.evaluateLines lines with
    | error problems => rfl
    | ok bound =>
      rw [hlines] at hreply
      exact congrArg (·.getD current) hreply
  unfold Keeps
  rw [hlatest]
  exact h

private theorem keeps_of_not_mem (h : s.broker.Remembers i slots current) {handle : Nat}
    (hlive : handle ∉ s.live) (use : Broker → Except SessionFault (Broker × Reply)) :
    Keeps i slots current request (s.through handle use) := by
  unfold through
  rw [if_neg hlive]
  exact keeps_of_no_variables rfl h

theorem through_of_mem {handle : Nat} (h : handle ∈ s.live)
    {use : Broker → Except SessionFault (Broker × Reply)} {b : Broker} {reply : Reply}
    (huse : use s.broker = .ok (b, reply)) :
    s.through handle use = ({ s with broker := b }, reply) := by
  unfold through
  rw [if_pos h, huse]

theorem serve_writeContext (hcontext : s.broker.slots.context ≠ "") {handle : Nat}
    (hlive : handle ∈ s.live) (lines : List String) :
    s.serve (.writeContext handle lines) =
      ({ s with broker := s.broker.holding lines }, .done) := by
  simp only [serve]
  refine through_of_mem hlive ?_
  rw [Broker.writeContext_of_ne_empty hcontext]
  rfl

theorem serve_readContext {handle : Nat} (hlive : handle ∈ s.live) :
    s.serve (.readContext handle) =
      ({ s with broker := s.broker.readContext.1 }, .variables s.broker.readContext.2) := by
  simp only [serve]
  exact through_of_mem hlive rfl

theorem serve_evaluateContext {handle : Nat} (hlive : handle ∈ s.live) {lines : List String}
    {b : Broker} {bound : Bindings} (h : s.broker.evaluateContext lines = .ok (b, bound)) :
    s.serve (.evaluateContext handle lines) = ({ s with broker := b }, .variables bound) := by
  simp only [serve]
  refine through_of_mem hlive ?_
  rw [h]
  rfl

private theorem exists_statements_of_evaluateNode (h : s.broker.Remembers i slots current)
    (hslots : slots.Apart) {p : Properties} {maxDepth : Nat} {node : Node} {b : Broker}
    {bound : Bindings} (hnode : s.broker.evaluateNode p maxDepth node = .ok (b, bound)) :
    ∃ lines, Resolution.resolve p maxDepth node = .ok lines ∧ bound = directly i lines current ∧
      b.Remembers i slots (directly i lines current) := by
  obtain ⟨lines, hresolve, hevaluate⟩ := Broker.evaluateNode_eq_ok_iff.1 hnode
  obtain ⟨b', hdirect, hb'⟩ := h.exists_evaluateContext hslots lines
  cases hevaluate.symm.trans hdirect
  exact ⟨lines, hresolve, rfl, hb'⟩

/-- What a request at a node does: it changes nothing, or it evaluates with a free broker and comes
back with the variables. -/
theorem serve_atNode (s : Lending) {p : Properties} {maxDepth : Nat} {node : Node}
    (h : request.AtNode p maxDepth node) :
    ((s.serve request).1.broker = s.broker ∧ (s.serve request).2.variables? = none) ∨
      ∃ bound, s.broker.held = false ∧
        s.broker.evaluateNode p maxDepth node = .ok ((s.serve request).1.broker, bound) ∧
          (s.serve request).2.variables? = some bound := by
  cases hheld : s.broker.held with
  | true =>
    left
    cases h with
    | evaluateAt =>
      simp only [serve, Broker.evaluateAt_of_held hheld]
      exact ⟨rfl, rfl⟩
    | openMask =>
      simp only [serve, Customization.openMask_of_held hheld]
      exact ⟨rfl, rfl⟩
  | false =>
    cases hnode : s.broker.evaluateNode p maxDepth node with
    | error failure =>
      left
      cases h with
      | evaluateAt =>
        simp only [serve, Broker.evaluateAt_of_free hheld, hnode]
        exact ⟨rfl, rfl⟩
      | openMask =>
        simp only [serve, Customization.openMask_of_fails hheld hnode]
        exact ⟨rfl, rfl⟩
    | ok result =>
      right
      refine ⟨result.2, rfl, ?_⟩
      cases h with
      | evaluateAt =>
        simp only [serve, Broker.evaluateAt_of_free hheld, hnode]
        exact ⟨rfl, rfl⟩
      | openMask =>
        obtain ⟨mask, -, hopen⟩ := Customization.exists_openMask_of_evaluateNode hheld hnode
        simp only [serve, hopen]
        exact ⟨rfl, rfl⟩

private theorem keeps_atNode (h : s.broker.Remembers i slots current) (hslots : slots.Apart)
    {p : Properties} {maxDepth : Nat} {node : Node} (hat : request.AtNode p maxDepth node) :
    Keeps i slots current request (s.serve request) := by
  rcases s.serve_atNode hat with ⟨hsame, hnone⟩ | ⟨bound, -, hnode, hbound⟩
  · exact keeps_of_no_variables hnone (hsame ▸ h)
  · obtain ⟨lines, hresolve, rfl, hb⟩ := exists_statements_of_evaluateNode h hslots hnode
    exact keeps_of_evaluates
      (hat.statements?_eq.trans (congrArg Except.toOption hresolve)) hbound hb

private theorem keeps_serve (h : s.broker.Remembers i slots current) (hslots : slots.Apart)
    (request : Request) : Keeps i slots current request (s.serve request) := by
  cases request with
  | acquire =>
    cases hheld : s.broker.held with
    | true =>
      rw [serve_acquire_of_held hheld]
      exact keeps_of_no_variables rfl h
    | false =>
      rw [serve_acquire_of_free hheld]
      exact keeps_of_no_variables rfl (h.withHeld true)
  | release handle =>
    simp only [serve]
    split
    · exact keeps_of_no_variables rfl (h.withHeld false)
    · exact keeps_of_no_variables rfl h
  | writeContext handle lines =>
    by_cases hlive : handle ∈ s.live
    · have hcontext : s.broker.slots.context ≠ "" := h.slots ▸ hslots.context
      rw [serve_writeContext hcontext hlive]
      exact keeps_of_no_variables rfl (h.holding hslots lines)
    · exact keeps_of_not_mem h hlive _
  | readContext handle =>
    by_cases hlive : handle ∈ s.live
    · rw [serve_readContext hlive]
      exact keeps_of_none rfl h.readContext.2
    · exact keeps_of_not_mem h hlive _
  | evaluateContext handle lines =>
    by_cases hlive : handle ∈ s.live
    · obtain ⟨b', hevaluate, hb'⟩ := h.exists_evaluateContext hslots lines
      rw [serve_evaluateContext hlive hevaluate]
      exact keeps_of_evaluates rfl rfl hb'
    · exact keeps_of_not_mem h hlive _
  | evaluateAt p maxDepth node => exact keeps_atNode h hslots .evaluateAt
  | openMask p maxDepth node => exact keeps_atNode h hslots .openMask

/-- A run, behind what happened before it. -/
theorem remembers_serveAll {events : List (Request × Reply)}
    (h : s.broker.Remembers i slots (latest i events)) (hslots : slots.Apart)
    (requests : List Request) :
    (s.serveAll requests).broker.Remembers i slots (latest i (events ++ s.history requests)) := by
  refine preserves_serveAll (P := fun s events => s.broker.Remembers i slots (latest i events)) ?_ h
  intro request _ s events hbefore
  rw [latest_concat]
  exact keeps_serve hbefore hslots request

private theorem refines_of_remembers {events : List (Request × Reply)}
    (h : s.broker.Remembers i slots (latest i events)) (hslots : slots.Apart) :
    s.Refines i events where
  interpreter := h.interpreter
  evaluateContext handle hlive lines := by
    obtain ⟨b', hevaluate, -⟩ := h.exists_evaluateContext hslots lines
    rw [serve_evaluateContext hlive hevaluate]
  readContext handle hlive := by rw [serve_readContext hlive, h.readContext.1]
  writeContext handle hlive lines := by
    have hcontext : s.broker.slots.context ≠ "" := h.slots ▸ hslots.context
    rw [serve_writeContext hcontext hlive]
  unchanged request hnone := by
    have hstep := keeps_serve h hslots request
    unfold Keeps at hstep
    rw [hnone] at hstep
    exact hstep.readContext.1.trans h.readContext.1.symm

end Step

/-- Evaluating through a broker refines evaluating directly. At every moment of every run over a
session that starts with no slots, evaluating statements gives what evaluating them directly gives
with the same global variables, or where that fails what the last evaluation gave that did not;
reading the variables gives the latter, and neither writing statements nor failing to evaluate them
changes it. -/
theorem evaluations_refine_direct {slots : SlotNames} (hslots : slots.Apart) (i : Interpreter)
    (requests : List Request) :
    ((start ⟨i, .empty⟩ slots).serveAll requests).Refines i
      ((start ⟨i, .empty⟩ slots).history requests) := by
  have hstart : (start ⟨i, .empty⟩ slots).broker.Remembers i slots (latest i []) :=
    Broker.remembers_ofSession i slots
  have hrun := remembers_serveAll hstart hslots requests
  exact refines_of_remembers hrun hslots

def failingEvaluation : List Request :=
  [.acquire, .evaluateContext 0 ["a = unit"], .evaluateContext 0 ["b = (1"],
    .writeContext 0 ["c = 1"]]

theorem evaluations_refine_direct_failing :
    SlotNames.default.Apart ∧ ∃ i s events, i = Interpreter.fresh.set "unit" (.text "V") ∧
      s = (start ⟨i, .empty⟩ .default).serveAll failingEvaluation ∧
        events = (start ⟨i, .empty⟩ .default).history failingEvaluation ∧
          s.live = [0] ∧ (latest i events).keys = ["a"] ∧ s.Refines i events :=
  ⟨SlotNames.apart_default, _, _, _, rfl, rfl, rfl, by decide +kernel, by decide +kernel,
    evaluations_refine_direct SlotNames.apart_default _ failingEvaluation⟩

end Lending

end DiagramScope
