import DiagramScope.Proofs.Customization.Opening

/-!
Callers of a broker. They take the session and give it back, use it through the handle that they
got, or have the broker evaluate at a node or open a mask. Main statement: at every moment of every
run at most one handle is live, requests that need the session for themselves are turned away
exactly while one is, and they leave no trace if they fail.
-/

set_option autoImplicit false
set_option relaxedAutoImplicit false

namespace DiagramScope

open Script (Bindings)

/-- A broker and the handles that callers have. -/
structure Lending where
  broker : Broker
  live : List Nat
  /-- How many handles were given out so far. Each is known by its number. -/
  issued : Nat

namespace Lending

inductive Request where
  | acquire
  /-- Gives a handle back, or drops it. -/
  | release (handle : Nat)
  | writeContext (handle : Nat) (lines : List String)
  | readContext (handle : Nat)
  | evaluateContext (handle : Nat) (lines : List String)
  | evaluateAt (p : Properties) (maxDepth : Nat) (node : Node)
  | openMask (p : Properties) (maxDepth : Nat) (node : Node)

inductive Reply where
  | granted (handle : Nat)
  /-- Somebody else has the session. -/
  | busy
  /-- The handle is not live. -/
  | noHandle
  | done
  | variables (bound : Bindings)
  | opened (customization : Customization)
  | failed (failure : Failure)

def start (session : Session) (slots : SlotNames) : Lending := ⟨.ofSession session slots, [], 0⟩

def through (s : Lending) (handle : Nat) (use : Broker → Except SessionFault (Broker × Reply)) :
    Lending × Reply :=
  if handle ∈ s.live then
    match use s.broker with
    | .ok (broker, reply) => ({ s with broker }, reply)
    | .error fault => (s, .failed (.session fault))
  else (s, .noHandle)

def settle {α : Type} (s : Lending) (reply : α → Reply)
    (result : Broker × Except Failure (Option α)) : Lending × Reply :=
  ({ s with broker := result.1 },
    match result.2 with
    | .ok (some a) => reply a
    | .ok none => .busy
    | .error failure => .failed failure)

def serve (s : Lending) : Request → Lending × Reply
  | .acquire =>
    match s.broker.tryAcquire with
    | some broker => (⟨broker, s.issued :: s.live, s.issued + 1⟩, .granted s.issued)
    | none => (s, .busy)
  | .release handle =>
    if handle ∈ s.live then
      ({ s with broker := s.broker.release, live := s.live.erase handle }, .done)
    else (s, .noHandle)
  | .writeContext handle lines =>
    s.through handle fun b => (b.writeContext lines).map fun b => (b, .done)
  | .readContext handle =>
    s.through handle fun b => .ok (b.readContext.1, .variables b.readContext.2)
  | .evaluateContext handle lines =>
    s.through handle fun b => (b.evaluateContext lines).map fun r => (r.1, .variables r.2)
  | .evaluateAt p maxDepth node => s.settle .variables (s.broker.evaluateAt p maxDepth node)
  | .openMask p maxDepth node => s.settle .opened (Customization.openMask s.broker p maxDepth node)

def serveAll (s : Lending) (requests : List Request) : Lending :=
  requests.foldl (fun s request => (s.serve request).1) s

/-- How a request ends that needs the session for itself: without result and effect while a handle
is live; else the session is free afterwards, and the broker is as before if the request failed. -/
structure TakesTurn {α : Type} (s : Lending) (result : Broker × Except Failure (Option α)) :
    Prop where
  none_iff : result.2 = .ok none ↔ s.live ≠ []
  idle : s.live ≠ [] → result.1 = s.broker
  free : s.live = [] → result.1.held = false
  failed : ∀ failure, result.2 = .error failure → result.1 = s.broker

/-- Whether the session is lent to one caller at a time. -/
structure LentToOne (s : Lending) : Prop where
  atMostOne : s.live.length ≤ 1
  held_iff : s.broker.held = true ↔ s.live ≠ []
  granted_iff : (∃ handle, (s.serve .acquire).2 = .granted handle) ↔ s.live = []
  evaluateAt : ∀ p maxDepth node, s.TakesTurn (s.broker.evaluateAt p maxDepth node)
  openMask : ∀ p maxDepth node, s.TakesTurn (Customization.openMask s.broker p maxDepth node)

section Exclusive

variable {s : Lending}

inductive Exclusive (s : Lending) : Prop where
  | free (hlive : s.live = []) (hheld : s.broker.held = false)
  | held (handle : Nat) (hlive : s.live = [handle]) (hheld : s.broker.held = true)

private theorem Exclusive.start (session : Session) (slots : SlotNames) :
    (start session slots).Exclusive :=
  .free rfl rfl

private theorem Exclusive.withBroker (h : s.Exclusive) {b : Broker}
    (hheld : b.held = s.broker.held) : ({ s with broker := b } : Lending).Exclusive := by
  cases h with
  | free hlive hfree => exact .free hlive (hheld.trans hfree)
  | held handle hlive hbusy => exact .held handle hlive (hheld.trans hbusy)

private theorem Exclusive.through (h : s.Exclusive) (handle : Nat)
    {use : Broker → Except SessionFault (Broker × Reply)}
    (huse : ∀ b reply, use s.broker = .ok (b, reply) → b.held = s.broker.held) :
    (s.through handle use).1.Exclusive := by
  unfold Lending.through
  split
  · split
    · next b reply hok => exact h.withBroker (huse b reply hok)
    · exact h
  · exact h

private theorem evaluateAt_takesTurn (h : s.Exclusive) (p : Properties) (maxDepth : Nat)
    (node : Node) : s.TakesTurn (s.broker.evaluateAt p maxDepth node) := by
  cases h with
  | held handle hlive hheld =>
    rw [Broker.evaluateAt_of_held hheld]
    exact ⟨by simp [hlive], fun _ => rfl, by simp [hlive], nofun⟩
  | free hlive hfree =>
    rw [Broker.evaluateAt_of_free hfree]
    cases hnode : s.broker.evaluateNode p maxDepth node with
    | error failure => exact ⟨by simp [hlive], by simp [hlive], fun _ => hfree, fun _ _ => rfl⟩
    | ok result =>
      have halike := Broker.alike_of_evaluateNode hnode
      exact ⟨by simp [hlive], by simp [hlive], fun _ => halike.held.trans hfree, nofun⟩

private theorem openMask_takesTurn (h : s.Exclusive) (p : Properties) (maxDepth : Nat)
    (node : Node) : s.TakesTurn (Customization.openMask s.broker p maxDepth node) := by
  cases h with
  | held handle hlive hheld =>
    rw [Customization.openMask_of_held hheld]
    exact ⟨by simp [hlive], fun _ => rfl, by simp [hlive], nofun⟩
  | free hlive hfree =>
    cases hnode : s.broker.evaluateNode p maxDepth node with
    | error failure =>
      rw [Customization.openMask_of_fails hfree hnode]
      exact ⟨by simp [hlive], by simp [hlive], fun _ => hfree, fun _ _ => rfl⟩
    | ok result =>
      obtain ⟨mask, -, hopen⟩ := Customization.exists_openMask_of_evaluateNode hfree hnode
      rw [hopen]
      have halike := Broker.alike_of_evaluateNode hnode
      exact ⟨by simp [hlive], by simp [hlive], fun _ => halike.held.trans hfree, nofun⟩

private theorem TakesTurn.exclusive {α : Type} {result : Broker × Except Failure (Option α)}
    (ht : s.TakesTurn result) (h : s.Exclusive) (reply : α → Reply) :
    (s.settle reply result).1.Exclusive := by
  cases h with
  | free hlive hfree => exact .free hlive (ht.free hlive)
  | held handle hlive hheld =>
    have hsame : result.1 = s.broker := ht.idle (by simp [hlive])
    exact .held handle hlive ((congrArg Broker.held hsame).trans hheld)

theorem serve_acquire_of_free (h : s.broker.held = false) :
    s.serve .acquire =
      (⟨{ s.broker with held := true }, s.issued :: s.live, s.issued + 1⟩, .granted s.issued) := by
  simp [serve, Broker.tryAcquire, h]

theorem serve_acquire_of_held (h : s.broker.held = true) : s.serve .acquire = (s, .busy) := by
  simp [serve, Broker.tryAcquire, h]

private theorem Exclusive.acquire (h : s.Exclusive) : (s.serve .acquire).1.Exclusive := by
  cases h with
  | free hlive hfree =>
    rw [serve_acquire_of_free hfree, hlive]
    exact .held s.issued rfl rfl
  | held handle hlive hheld =>
    rw [serve_acquire_of_held hheld]
    exact .held handle hlive hheld

private theorem Exclusive.release (h : s.Exclusive) (handle : Nat) :
    (s.serve (.release handle)).1.Exclusive := by
  simp only [serve]
  split
  · next hmem =>
    cases h with
    | free hlive => simp [hlive] at hmem
    | held only hlive =>
      obtain rfl : handle = only := by simpa [hlive] using hmem
      exact .free (by simp [hlive]) rfl
  · exact h

private theorem Exclusive.serve (h : s.Exclusive) (request : Request) :
    (s.serve request).1.Exclusive := by
  cases request with
  | acquire => exact h.acquire
  | release handle => exact h.release handle
  | writeContext handle lines =>
    refine h.through handle fun b reply hwrite => ?_
    obtain ⟨_, hwrite, hpair⟩ := Except.map_eq_ok_iff.1 hwrite
    obtain ⟨session, -, rfl⟩ := Except.map_eq_ok_iff.1 hwrite
    cases hpair
    rfl
  | readContext handle =>
    refine h.through handle fun b reply hread => ?_
    cases hread
    exact (Broker.alike_readContext s.broker).held
  | evaluateContext handle lines =>
    refine h.through handle fun b reply hevaluate => ?_
    obtain ⟨result, hresult, hpair⟩ := Except.map_eq_ok_iff.1 hevaluate
    cases hpair
    exact (Broker.alike_of_evaluateContext hresult).held
  | evaluateAt p maxDepth node => exact (evaluateAt_takesTurn h p maxDepth node).exclusive h _
  | openMask p maxDepth node => exact (openMask_takesTurn h p maxDepth node).exclusive h _

private theorem Exclusive.serveAll (h : s.Exclusive) (requests : List Request) :
    (s.serveAll requests).Exclusive := by
  induction requests generalizing s with
  | nil => exact h
  | cons request requests ih => exact ih (h.serve request)

private theorem Exclusive.lentToOne (h : s.Exclusive) : s.LentToOne := by
  refine ⟨?_, ?_, ?_, evaluateAt_takesTurn h, openMask_takesTurn h⟩
  · cases h with
    | free hlive => simp [hlive]
    | held handle hlive => simp [hlive]
  · cases h with
    | free hlive hfree => simp [hlive, hfree]
    | held handle hlive hheld => simp [hlive, hheld]
  · cases h with
    | free hlive hfree => simp [serve_acquire_of_free hfree, hlive]
    | held handle hlive hheld => simp [serve_acquire_of_held hheld, hlive]

end Exclusive

/-- A broker lends its session to one caller at a time, whatever callers ask for and in whatever
order: at most one handle is live, the session is held exactly while one is, and a handle is given
out exactly while none is. Evaluating at a node and opening a mask end without a result exactly
while a handle is live, and then change nothing; otherwise the session is free afterwards, and if
they fail the broker, its session and the variables that were read last are as before. -/
theorem sessions_are_lent_to_one_caller (session : Session) (slots : SlotNames)
    (requests : List Request) : ((start session slots).serveAll requests).LentToOne := by
  have hstart := Exclusive.start session slots
  exact (hstart.serveAll requests).lentToOne

end Lending

end DiagramScope
