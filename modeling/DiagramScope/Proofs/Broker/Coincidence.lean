import DiagramScope.Proofs.Broker.Provenance
import DiagramScope.Proofs.Script.Value.Assignment

/-!
What the names of a session's slots can be told by. Main statement: two brokers that differ in the
names of their slots reply alike in every run exactly if the same of their slots coincide, as long
as statements can be written at all. Where one slot is meant for two things, this shows.
-/

set_option autoImplicit false
set_option relaxedAutoImplicit false

namespace DiagramScope

open Script (Bindings Interpreter Value)

inductive SlotNames.Role where
  | context
  | names
  | values
  deriving DecidableEq, Repr

namespace SlotNames

variable {first second : SlotNames}

def slot (names : SlotNames) : Role → String
  | .context => names.context
  | .names => names.names
  | .values => names.values

/-- Whether roles share a slot under the first names exactly if they do under the second. -/
def SharesLike (first second : SlotNames) : Prop :=
  ∀ role other, first.slot role = first.slot other ↔ second.slot role = second.slot other

/-- Whether the same slots coincide, as far as it can show. With one slot for names and values
nothing is ever read back, whether statements share it or not. -/
structure Alike (first second : SlotNames) : Prop where
  readable : first.names = first.values ↔ second.names = second.values
  shares : first.names ≠ first.values → first.SharesLike second

private theorem sharesLike_iff :
    first.SharesLike second ↔
      (first.names = first.values ↔ second.names = second.values) ∧
        (first.names = first.context ↔ second.names = second.context) ∧
          (first.values = first.context ↔ second.values = second.context) := by
  constructor
  · exact fun h => ⟨h .names .values, h .names .context, h .values .context⟩
  · rintro ⟨hread, hnames, hvalues⟩ role other
    cases role <;> cases other <;> simp only [slot, hread, hnames, hvalues, eq_comm] <;> tauto

/-- What can be read back of variables that were captured, after other lines were written in place
of the statements. Where the names stand with the statements, these lines are taken for names. -/
def readBehind (names : SlotNames) (bound : Bindings) (lines : List String) : Bindings :=
  if names.names = names.values ∨ names.values = names.context then .empty
  else if names.names = names.context then .ofList (lines.zip bound.values)
  else bound

private theorem keys_readBack (names : SlotNames) (name : String) (value : Value) :
    (names.readBack (OrderedMap.empty.insert name value)).keys =
      if names.names = names.values then [] else [name] := by
  unfold readBack
  split <;> rfl

private theorem keys_readBehind (names : SlotNames) (name line : String) (value : Value) :
    (names.readBehind (OrderedMap.empty.insert name value) [line]).keys =
      if names.names = names.values ∨ names.values = names.context then []
      else if names.names = names.context then [line]
      else [name] := by
  unfold readBehind
  split
  · rfl
  · split <;> rfl

private theorem Apart.alike (hfirst : first.Apart) (hsecond : second.Apart) :
    first.Alike second := by
  have hread : first.names = first.values ↔ second.names = second.values :=
    iff_of_false hfirst.values hsecond.values
  refine ⟨hread, fun _ => sharesLike_iff.2 ⟨hread, ?_, ?_⟩⟩
  · exact iff_of_false hfirst.names_ne_context hsecond.names_ne_context
  · exact iff_of_false hfirst.values_ne_context hsecond.values_ne_context

def Agree (first second : SlotNames) (s t : Session) : Prop :=
  ∀ role, s.read (first.slot role) = t.read (second.slot role)

private theorem Agree.insert {s t : Session} (h : first.Agree second s t)
    (hshares : first.SharesLike second) (role : Role) (content : SlotContent) :
    first.Agree second { s with slots := s.slots.insert (first.slot role) content }
      { t with slots := t.slots.insert (second.slot role) content } := by
  intro other
  unfold Session.read
  by_cases hsame : first.slot other = first.slot role
  · have hsame' : second.slot other = second.slot role := (hshares other role).1 hsame
    rw [hsame, hsame', OrderedMap.get?_insert_self, OrderedMap.get?_insert_self]
  · have hsame' : second.slot other ≠ second.slot role :=
      fun he => hsame ((hshares other role).2 he)
    rw [OrderedMap.get?_insert_of_ne _ hsame, OrderedMap.get?_insert_of_ne _ hsame']
    exact h other

private theorem Agree.capture {s t : Session} (h : first.Agree second s t)
    (hshares : first.SharesLike second) (bound : Bindings) :
    first.Agree second (s.capture first bound) (t.capture second bound) := by
  have hnames := h.insert hshares .names (.strings bound.keys)
  exact hnames.insert hshares .values (.values bound.values)

end SlotNames

namespace Session

variable {first second : SlotNames} {s t : Session}

private theorem captured?_of_reads {names : SlotNames} {ks : List String} {vs : List Value}
    (hnames : s.read names.names = some (.strings ks))
    (hvalues : s.read names.values = some (.values vs)) :
    s.captured? names = some (.ofList (ks.zip vs)) := by
  unfold captured?
  rw [hnames, hvalues]

private theorem captured?_of_strings {names : SlotNames} {lines : List String}
    (h : s.read names.values = some (.strings lines)) : s.captured? names = none := by
  unfold captured?
  rw [h]
  cases s.read names.names with
  | none => rfl
  | some content => cases content <;> rfl

section Capture

variable (s : Session) (names : SlotNames) (bound : Bindings)

private theorem read_capture_values :
    (s.capture names bound).read names.values = some (.values bound.values) :=
  OrderedMap.get?_insert_self _ _ _

private theorem read_capture_names (h : names.names ≠ names.values) :
    (s.capture names bound).read names.names = some (.strings bound.keys) :=
  (OrderedMap.get?_insert_of_ne _ h _).trans (OrderedMap.get?_insert_self _ _ _)

private theorem read_capture_names_iff :
    (s.capture names bound).read names.names = some (.strings bound.keys) ↔
      names.names ≠ names.values := by
  refine ⟨fun h hread => ?_, s.read_capture_names names bound⟩
  rw [hread, read_capture_values] at h
  cases h

private theorem captured?_capture_getD :
    ((s.capture names bound).captured? names).getD .empty = names.readBack bound := by
  unfold SlotNames.readBack
  by_cases hread : names.names = names.values
  · rw [if_pos hread, captured?_of_shared _ hread]
    rfl
  · have hnames := s.read_capture_names names bound hread
    rw [if_neg hread, captured?_of_reads hnames (s.read_capture_values names bound),
      OrderedMap.keys_zip_values, OrderedMap.ofList_entries]
    rfl

private theorem captured?_holding_getD (lines : List String) :
    (((s.capture names bound).holding names.context lines).captured? names).getD .empty =
      names.readBehind bound lines := by
  have hwritten {slot : String} (h : slot = names.context) :
      ((s.capture names bound).holding names.context lines).read slot = some (.strings lines) := by
    rw [h]
    exact OrderedMap.get?_insert_self _ _ _
  have hkept {slot : String} (h : slot ≠ names.context) :
      ((s.capture names bound).holding names.context lines).read slot =
        (s.capture names bound).read slot := OrderedMap.get?_insert_of_ne _ h _
  unfold SlotNames.readBehind
  by_cases hread : names.names = names.values
  · rw [if_pos (Or.inl hread), captured?_of_shared _ hread]
    rfl
  by_cases hvalues : names.values = names.context
  · rw [if_pos (Or.inr hvalues), captured?_of_strings (hwritten hvalues)]
    rfl
  have hvalues' := (hkept hvalues).trans (s.read_capture_values names bound)
  rw [if_neg (not_or.2 ⟨hread, hvalues⟩)]
  by_cases hnames : names.names = names.context
  · rw [if_pos hnames, captured?_of_reads (hwritten hnames) hvalues']
    rfl
  · have hnames' := (hkept hnames).trans (s.read_capture_names names bound hread)
    rw [if_neg hnames, captured?_of_reads hnames' hvalues', OrderedMap.keys_zip_values,
      OrderedMap.ofList_entries]
    rfl

end Capture

private theorem captured?_of_agree (h : first.Agree second s t) :
    s.captured? first = t.captured? second := by
  have hnames : s.read first.names = t.read second.names := h .names
  have hvalues : s.read first.values = t.read second.values := h .values
  unfold captured?
  rw [hnames, hvalues]

end Session

namespace Broker

variable {b c : Broker}

/-- Whether two brokers cannot be told apart: they have the same interpreter, the same variables
were read last, and what their slots hold can be read back alike. -/
structure Twins (b c : Broker) : Prop where
  interpreter : b.session.interpreter = c.session.interpreter
  lastRead : b.lastRead = c.lastRead
  held : b.held = c.held
  writable : b.slots.context ≠ "" ∧ c.slots.context ≠ ""
  alike : b.slots.Alike c.slots
  agree : b.slots.names ≠ b.slots.values → b.slots.Agree c.slots b.session c.session

private theorem readContext_eq (b : Broker) :
    b.readContext.2 = (b.session.captured? b.slots).getD .empty ∧
      b.readContext.1.session = b.session ∧ b.readContext.1.slots = b.slots := by
  unfold readContext
  cases b.session.captured? b.slots <;> exact ⟨rfl, rfl, rfl⟩

/-- Statements that can be evaluated give what can be read back of their variables. Behind them the
values stand in their slot, and the names in theirs exactly if it is another one. -/
theorem exists_captured_slots (hcontext : b.slots.context ≠ "") {lines : List String}
    {bound : Bindings} (hlines : b.session.interpreter.evaluateLines lines = .ok bound) :
    ∃ b', b.evaluateContext lines = .ok (b', b.slots.readBack bound) ∧
      b'.session = ((b.holding lines).capturing bound).session ∧ b'.slots = b.slots := by
  obtain ⟨hread, hsession, hslots⟩ := readContext_eq ((b.holding lines).capturing bound)
  refine ⟨_, ?_, hsession, hslots⟩
  rw [evaluateContext_of_ok hcontext hlines]
  refine congrArg Except.ok (Prod.ext rfl (hread.trans ?_))
  exact (b.holding lines).session.captured?_capture_getD b.slots bound

namespace Twins

private theorem ofSession {first second : SlotNames} (hfirst : first.context ≠ "")
    (hsecond : second.context ≠ "") (h : first.Alike second) (i : Interpreter) :
    (ofSession ⟨i, .empty⟩ first).Twins (ofSession ⟨i, .empty⟩ second) :=
  ⟨rfl, rfl, rfl, ⟨hfirst, hsecond⟩, h, fun _ _ => rfl⟩

private theorem withHeld (h : b.Twins c) (held : Bool) :
    ({ b with held } : Broker).Twins { c with held } :=
  ⟨h.interpreter, h.lastRead, rfl, h.writable, h.alike, h.agree⟩

private theorem holding (h : b.Twins c) (lines : List String) :
    (b.holding lines).Twins (c.holding lines) where
  interpreter := h.interpreter
  lastRead := h.lastRead
  held := h.held
  writable := h.writable
  alike := h.alike
  agree hread := (h.agree hread).insert (h.alike.shares hread) .context (.strings lines)

private theorem capturing (h : b.Twins c) (bound : Bindings) :
    (b.capturing bound).Twins (c.capturing bound) where
  interpreter := h.interpreter
  lastRead := h.lastRead
  held := h.held
  writable := h.writable
  alike := h.alike
  agree hread := (h.agree hread).capture (h.alike.shares hread) bound

private theorem captured? (h : b.Twins c) :
    b.session.captured? b.slots = c.session.captured? c.slots := by
  by_cases hread : b.slots.names = b.slots.values
  · have hread' : c.slots.names = c.slots.values := h.alike.readable.1 hread
    rw [Session.captured?_of_shared _ hread, Session.captured?_of_shared _ hread']
  · exact Session.captured?_of_agree (h.agree hread)

private theorem exists_readContext (h : b.Twins c) :
    ∃ b' c' bound, b.readContext = (b', bound) ∧ c.readContext = (c', bound) ∧ b'.Twins c' := by
  have hcaptured := h.captured?
  cases hread : c.session.captured? c.slots with
  | none =>
    exact ⟨_, _, _, readContext_of_none (hcaptured.trans hread), readContext_of_none hread, h⟩
  | some bound =>
    refine ⟨_, _, _, readContext_of_some (hcaptured.trans hread), readContext_of_some hread, ?_⟩
    exact ⟨h.interpreter, rfl, h.held, h.writable, h.alike, h.agree⟩

inductive Results (first second : Except Failure (Broker × Bindings)) : Prop where
  | ok (b c : Broker) (bound : Bindings) (hfirst : first = .ok (b, bound))
    (hsecond : second = .ok (c, bound)) (htwins : b.Twins c)
  | error (failure : Failure) (hfirst : first = .error failure) (hsecond : second = .error failure)

private theorem exists_evaluateContext (h : b.Twins c) (lines : List String) :
    ∃ b' c' bound, b.evaluateContext lines = .ok (b', bound) ∧
      c.evaluateContext lines = .ok (c', bound) ∧ b'.Twins c' := by
  obtain ⟨hb, hc⟩ := h.writable
  cases hlines : c.session.interpreter.evaluateLines lines with
  | error problems =>
    have hlines' : b.session.interpreter.evaluateLines lines = .error problems := by
      rw [h.interpreter, hlines]
    refine ⟨_, _, c.lastRead, ?_, evaluateContext_of_error hc hlines, h.holding lines⟩
    rw [evaluateContext_of_error hb hlines', h.lastRead]
  | ok bound =>
    have hlines' : b.session.interpreter.evaluateLines lines = .ok bound := by
      rw [h.interpreter, hlines]
    obtain ⟨b', c', found, hb', hc', htwins⟩ :=
      ((h.holding lines).capturing bound).exists_readContext
    refine ⟨b', c', found, ?_, ?_, htwins⟩
    · rw [evaluateContext_of_ok hb hlines', hb']
    · rw [evaluateContext_of_ok hc hlines, hc']

private theorem evaluateNode (h : b.Twins c) (p : Properties) (maxDepth : Nat) (node : Node) :
    Results (b.evaluateNode p maxDepth node) (c.evaluateNode p maxDepth node) := by
  unfold Broker.evaluateNode
  cases Resolution.resolve p maxDepth node with
  | error failure => exact .error failure rfl rfl
  | ok statements =>
    obtain ⟨b', c', bound, hb, hc, htwins⟩ := h.exists_evaluateContext statements
    refine .ok b' c' bound ?_ ?_ htwins
    · exact congrArg Failure.ofSession hb
    · exact congrArg Failure.ofSession hc

end Twins

end Broker

namespace Lending

def replies (s : Lending) (requests : List Request) : List Reply :=
  (s.history requests).map Prod.snd

structure Twins (s t : Lending) : Prop where
  broker : s.broker.Twins t.broker
  live : s.live = t.live
  issued : s.issued = t.issued

structure TwinResults (first second : Lending × Reply) : Prop where
  reply : first.2 = second.2
  twins : first.1.Twins second.1

section Twins

variable {s t : Lending}

private theorem Twins.withBroker (h : s.Twins t) {b c : Broker} (hbroker : b.Twins c) :
    ({ s with broker := b } : Lending).Twins { t with broker := c } :=
  ⟨hbroker, h.live, h.issued⟩

private theorem Twins.through (h : s.Twins t) (handle : Nat) (reply : Reply)
    {use : Broker → Except SessionFault (Broker × Reply)} {b c : Broker}
    (hs : use s.broker = .ok (b, reply)) (ht : use t.broker = .ok (c, reply))
    (htwins : b.Twins c) : TwinResults (s.through handle use) (t.through handle use) := by
  by_cases hlive : handle ∈ s.live
  · have hlive' : handle ∈ t.live := h.live ▸ hlive
    rw [through_of_mem hlive hs, through_of_mem hlive' ht]
    exact ⟨rfl, h.withBroker htwins⟩
  · have hlive' : handle ∉ t.live := h.live ▸ hlive
    unfold Lending.through
    rw [if_neg hlive, if_neg hlive']
    exact ⟨rfl, h⟩

private theorem Twins.acquire (h : s.Twins t) :
    TwinResults (s.serve .acquire) (t.serve .acquire) := by
  have hheld := h.broker.held
  cases hfree : t.broker.held with
  | true =>
    rw [serve_acquire_of_held (hheld.trans hfree), serve_acquire_of_held hfree]
    exact ⟨rfl, h⟩
  | false =>
    rw [serve_acquire_of_free (hheld.trans hfree), serve_acquire_of_free hfree, h.live, h.issued]
    exact ⟨rfl, h.broker.withHeld true, rfl, rfl⟩

private theorem Twins.release (h : s.Twins t) (handle : Nat) :
    TwinResults (s.serve (.release handle)) (t.serve (.release handle)) := by
  simp only [serve]
  rw [h.live]
  split
  · exact ⟨rfl, h.broker.withHeld false, rfl, h.issued⟩
  · exact ⟨rfl, h⟩

private theorem Twins.evaluateAt (h : s.Twins t) (p : Properties) (maxDepth : Nat) (node : Node) :
    TwinResults (s.serve (.evaluateAt p maxDepth node))
      (t.serve (.evaluateAt p maxDepth node)) := by
  have hheld := h.broker.held
  simp only [serve]
  cases hfree : t.broker.held with
  | true =>
    rw [Broker.evaluateAt_of_held (hheld.trans hfree), Broker.evaluateAt_of_held hfree]
    exact ⟨rfl, h⟩
  | false =>
    rw [Broker.evaluateAt_of_free (hheld.trans hfree), Broker.evaluateAt_of_free hfree]
    cases h.broker.evaluateNode p maxDepth node with
    | ok b c bound hs ht htwins =>
      rw [hs, ht]
      exact ⟨rfl, h.withBroker htwins⟩
    | error failure hs ht =>
      rw [hs, ht]
      exact ⟨rfl, h⟩

private theorem Twins.openMask (h : s.Twins t) (p : Properties) (maxDepth : Nat) (node : Node) :
    TwinResults (s.serve (.openMask p maxDepth node)) (t.serve (.openMask p maxDepth node)) := by
  have hheld := h.broker.held
  simp only [serve]
  cases hfree : t.broker.held with
  | true =>
    rw [Customization.openMask_of_held (hheld.trans hfree), Customization.openMask_of_held hfree]
    exact ⟨rfl, h⟩
  | false =>
    cases h.broker.evaluateNode p maxDepth node with
    | ok b c bound hs ht htwins =>
      obtain ⟨mask, hmask, hopen⟩ :=
        Customization.exists_openMask_of_evaluateNode (hheld.trans hfree) hs
      obtain ⟨mask', hmask', hopen'⟩ := Customization.exists_openMask_of_evaluateNode hfree ht
      obtain rfl := Except.ok.inj (hmask.symm.trans hmask')
      rw [hopen, hopen']
      exact ⟨rfl, h.withBroker htwins⟩
    | error failure hs ht =>
      rw [Customization.openMask_of_fails (hheld.trans hfree) hs,
        Customization.openMask_of_fails hfree ht]
      exact ⟨rfl, h⟩

/-- One step of a run. -/
theorem Twins.serve (h : s.Twins t) (request : Request) :
    TwinResults (s.serve request) (t.serve request) := by
  cases request with
  | acquire => exact h.acquire
  | release handle => exact h.release handle
  | writeContext handle lines =>
    obtain ⟨hs, ht⟩ := h.broker.writable
    simp only [Lending.serve]
    refine h.through handle .done ?_ ?_ (h.broker.holding lines)
    · rw [Broker.writeContext_of_ne_empty hs]
      rfl
    · rw [Broker.writeContext_of_ne_empty ht]
      rfl
  | readContext handle =>
    obtain ⟨b, c, bound, hs, ht, htwins⟩ := h.broker.exists_readContext
    simp only [Lending.serve]
    refine h.through handle (.variables bound) ?_ ?_ htwins
    · rw [hs]
    · rw [ht]
  | evaluateContext handle lines =>
    obtain ⟨b, c, bound, hs, ht, htwins⟩ := h.broker.exists_evaluateContext lines
    simp only [Lending.serve]
    refine h.through handle (.variables bound) ?_ ?_ htwins
    · rw [hs]
      rfl
    · rw [ht]
      rfl
  | evaluateAt p maxDepth node => exact h.evaluateAt p maxDepth node
  | openMask p maxDepth node => exact h.openMask p maxDepth node

private theorem replies_cons (s : Lending) (request : Request) (requests : List Request) :
    s.replies (request :: requests) =
      (s.serve request).2 :: (s.serve request).1.replies requests := rfl

private theorem Twins.replies (h : s.Twins t) (requests : List Request) :
    s.replies requests = t.replies requests := by
  induction requests generalizing s t with
  | nil => rfl
  | cons request requests ih =>
    obtain ⟨hreply, htwins⟩ := h.serve request
    rw [replies_cons, replies_cons, hreply, ih htwins]

end Twins

/-- Whether a request uses the session through a handle. -/
inductive Request.Uses (handle : Nat) : Request → Prop where
  | writeContext (lines : List String) : Uses handle (.writeContext handle lines)
  | readContext : Uses handle (.readContext handle)
  | evaluateContext (lines : List String) : Uses handle (.evaluateContext handle lines)

section Probe

variable {slots first second : SlotNames} {i : Interpreter} {lines : List String} {bound : Bindings}

/-- Statements, other lines in their place that are not evaluated, and a look at the variables. -/
def probe (lines more : List String) : List Request :=
  [.evaluateContext 0 lines, .writeContext 0 more, .readContext 0]

private theorem uses_of_mem_probe {lines more : List String} {use : Request}
    (h : use ∈ probe lines more) : use.Uses 0 := by
  simp only [probe, List.mem_cons, List.not_mem_nil, or_false] at h
  obtain rfl | rfl | rfl := h
  · exact .evaluateContext lines
  · exact .writeContext more
  · exact .readContext

private theorem replies_probe (hcontext : slots.context ≠ "")
    (hlines : i.evaluateLines lines = .ok bound) (more : List String) :
    (start ⟨i, .empty⟩ slots).replies (.acquire :: probe lines more) =
      [.granted 0, .variables (slots.readBack bound), .done,
        .variables (slots.readBehind bound more)] := by
  have hfree : (start ⟨i, .empty⟩ slots).broker.held = false := rfl
  let b : Broker := { (start ⟨i, .empty⟩ slots).broker with held := true }
  obtain ⟨b', hevaluate, hsession, hslots⟩ := Broker.exists_captured_slots (b := b) hcontext hlines
  have hcontext' : b'.slots.context ≠ "" := hslots ▸ hcontext
  have hread : (b'.holding more).readContext.2 = slots.readBehind bound more := by
    rw [(Broker.readContext_eq _).1]
    unfold Broker.holding
    rw [hsession, hslots]
    exact (b.holding lines).session.captured?_holding_getD slots bound more
  have hlive : 0 ∈ [0] := List.mem_singleton_self 0
  have hacquire : (start ⟨i, .empty⟩ slots).serve .acquire = (⟨b, [0], 1⟩, .granted 0) :=
    serve_acquire_of_free hfree
  have hfirst : serve ⟨b, [0], 1⟩ (.evaluateContext 0 lines) =
      (⟨b', [0], 1⟩, .variables (slots.readBack bound)) := serve_evaluateContext hlive hevaluate
  have hsecond : serve ⟨b', [0], 1⟩ (.writeContext 0 more) = (⟨b'.holding more, [0], 1⟩, .done) :=
    serve_writeContext hcontext' hlive more
  have hthird : (serve ⟨b'.holding more, [0], 1⟩ (.readContext 0)).2 =
      .variables (slots.readBehind bound more) := by rw [serve_readContext hlive, hread]
  unfold probe
  simp only [replies_cons, hacquire, hfirst, hsecond, hthird]
  rfl

private theorem evaluateLines_text (i : Interpreter) :
    i.evaluateLines ["a = \"v\""] = .ok (OrderedMap.empty.insert "a" (.text "v")) := by
  have hname : Script.IsName "a" := ⟨'a', [], rfl, by decide, nofun⟩
  have hconstant : Script.constant? "a" = none := by decide +kernel
  have hcopies : Script.Copies (.fresh i.globals) (Value.text "v").written (Value.text "v").levels
      (.text "v") := Script.copies_text (List.forall_mem_singleton.2 rfl)
  have hline : "a" ++ " = " ++ (Value.text "v").display = "a = \"v\"" := by decide +kernel
  have hbinds := i.exists_evaluateLines_assignment hname hconstant hcopies rfl (by decide)
  rw [hline] at hbinds
  obtain ⟨copy, hevaluate, hequal⟩ := hbinds
  cases copy with
  | text content =>
    obtain rfl : "v" = content := beq_iff_eq.1 hequal
    exact hevaluate
  | _ => cases hequal

/-- Where different slots coincide, a look behind statements that are written tells the names of the
slots apart. -/
theorem alike_of_replies_eq (hfirst : first.context ≠ "") (hsecond : second.context ≠ "")
    (h : (start ⟨i, .empty⟩ first).replies (.acquire :: probe ["a = \"v\""] ["b"]) =
      (start ⟨i, .empty⟩ second).replies (.acquire :: probe ["a = \"v\""] ["b"])) :
    first.Alike second := by
  rw [replies_probe hfirst (evaluateLines_text i),
    replies_probe hsecond (evaluateLines_text i)] at h
  simp only [List.cons.injEq, Reply.variables.injEq, true_and, and_true] at h
  obtain ⟨hback, hbehind⟩ := h
  have hback' := congrArg OrderedMap.keys hback
  have hbehind' := congrArg OrderedMap.keys hbehind
  rw [SlotNames.keys_readBack, SlotNames.keys_readBack] at hback'
  rw [SlotNames.keys_readBehind, SlotNames.keys_readBehind] at hbehind'
  have hread : first.names = first.values ↔ second.names = second.values := by
    split_ifs at hback' <;> simp_all
  refine ⟨hread, fun hapart => SlotNames.sharesLike_iff.2 ⟨hread, ?_⟩⟩
  have hapart' : second.names ≠ second.values := fun h => hapart (hread.2 h)
  simp only [hapart, hapart', false_or] at hbehind'
  split_ifs at hbehind' <;> simp_all

end Probe

/-- The names of a session's slots show in the replies of its broker exactly by their coincidences.
If the same slots coincide under two names, every run gives the same replies; if not, there are uses
of one handle that give others. Behind statements that can be evaluated the values stand in the slot
of the values, and the names in the slot of the names exactly if that is another one; where it is
not, no variables are read back. -/
theorem slot_names_show_by_coincidence {first second : SlotNames} (hfirst : first.context ≠ "")
    (hsecond : second.context ≠ "") (i : Interpreter) :
    (first.Alike second → ∀ requests,
      (start ⟨i, .empty⟩ first).replies requests = (start ⟨i, .empty⟩ second).replies requests) ∧
    (¬ first.Alike second → ∃ uses : List Request, (∀ use ∈ uses, use.Uses 0) ∧
      (start ⟨i, .empty⟩ first).replies (.acquire :: uses) ≠
        (start ⟨i, .empty⟩ second).replies (.acquire :: uses)) ∧
    ∀ b : Broker, b.slots = first → ∀ lines bound,
      b.session.interpreter.evaluateLines lines = .ok bound →
        ∃ b', b.evaluateContext lines = .ok (b', first.readBack bound) ∧
          b'.session.read first.values = some (.values bound.values) ∧
          (b'.session.read first.names = some (.strings bound.keys) ↔
            first.names ≠ first.values) := by
  refine ⟨fun halike requests => ?_, fun hunlike => ?_, ?_⟩
  · have hstart : (start ⟨i, .empty⟩ first).Twins (start ⟨i, .empty⟩ second) :=
      ⟨.ofSession hfirst hsecond halike i, rfl, rfl⟩
    exact hstart.replies requests
  · refine ⟨probe ["a = \"v\""] ["b"], fun use => uses_of_mem_probe, fun h => ?_⟩
    exact hunlike (alike_of_replies_eq hfirst hsecond h)
  · rintro b rfl lines bound hlines
    obtain ⟨b', hevaluate, hsession, -⟩ := Broker.exists_captured_slots hfirst hlines
    refine ⟨b', hevaluate, ?_⟩
    rw [hsession]
    exact ⟨Session.read_capture_values _ _ _, Session.read_capture_names_iff _ _ _⟩

theorem slot_names_show_by_coincidence_renamed :
    SlotNames.default.context ≠ "" ∧ (⟨"s", "n", "v"⟩ : SlotNames).context ≠ "" ∧
      SlotNames.default.Alike ⟨"s", "n", "v"⟩ ∧ ∀ requests,
        (start .fresh .default).replies requests =
          (start .fresh ⟨"s", "n", "v"⟩).replies requests := by
  have hrenamed : (⟨"s", "n", "v"⟩ : SlotNames).Apart :=
    ⟨⟨by decide, by decide⟩, by decide, by decide⟩
  have halike := SlotNames.apart_default.alike hrenamed
  exact ⟨by decide, by decide, halike,
    (slot_names_show_by_coincidence (by decide) (by decide) .fresh).1 halike⟩

def shownNames (slots : SlotNames) : List (List String) :=
  ((start .fresh slots).replies (.acquire :: probe ["a = \"v\""] ["b"])).filterMap fun reply =>
    reply.variables?.map OrderedMap.keys

/-- Slots that coincide show: with one slot for names and values nothing is read back, statements
that share a slot with the names are taken for names, and those that share one with the values hide
them. -/
theorem coinciding_slots_show :
    shownNames .default = [["a"], ["a"]] ∧
      ∀ shown ∈
        ([(⟨"context", "out", "out"⟩, [[], []]), (⟨"context", "context", "out"⟩, [["a"], ["b"]]),
          (⟨"context", "out", "context"⟩, [["a"], []])] : List (SlotNames × List (List String))),
        shown.1.context ≠ "" ∧ shownNames shown.1 = shown.2 ∧
          (start .fresh shown.1).replies (.acquire :: probe ["a = \"v\""] ["b"]) ≠
            (start .fresh .default).replies (.acquire :: probe ["a = \"v\""] ["b"]) := by
  have hdefault : shownNames .default = [["a"], ["a"]] := by decide +kernel
  refine ⟨hdefault, fun shown hshown => ?_⟩
  have hother : shown.1.context ≠ "" ∧ shownNames shown.1 = shown.2 ∧ shown.2 ≠ [["a"], ["a"]] := by
    revert shown
    decide +kernel
  obtain ⟨hcontext, hnames, hne⟩ := hother
  refine ⟨hcontext, hnames, fun hsame => hne ?_⟩
  rw [← hnames, ← hdefault]
  exact congrArg (List.filterMap fun reply => reply.variables?.map OrderedMap.keys) hsame

end Lending

end DiagramScope
