import DiagramScope.Proofs.Broker.History
import DiagramScope.Proofs.Customization.Editing
import DiagramScope.Proofs.Customization.Insertion
import DiagramScope.Proofs.Script.Evaluation.Naming

/-!
Where the variables come from that an open mask offers. Main statement: they are assigned by the
statements in effect at its node if these can be evaluated, and else by the statements of an earlier
request, whose node may have nothing to do with it.
-/

set_option autoImplicit false
set_option relaxedAutoImplicit false

namespace DiagramScope

open Script (Assigns Bindings Interpreter)

/-- What can be read back of variables that were captured: nothing if one slot is meant for both
names and values. -/
def SlotNames.readBack (names : SlotNames) (bound : Bindings) : Bindings :=
  if names.names = names.values then .empty else bound

private theorem SlotNames.mem_keys_of_readBack {names : SlotNames} {bound : Bindings}
    {name : String} (h : name ∈ (names.readBack bound).keys) : name ∈ bound.keys := by
  unfold readBack at h
  split at h
  · cases h
  · exact h

theorem Session.captured?_of_shared (s : Session) {names : SlotNames}
    (h : names.names = names.values) : s.captured? names = none := by
  unfold captured?
  rw [h]
  cases s.read names.values with
  | none => rfl
  | some content => cases content <;> rfl

namespace Broker

variable {b b' : Broker} {i : Interpreter} {slots : SlotNames} {current bound : Bindings}

/-- Whether a broker has the interpreter and the slots, and keeps the variables as those that were
read last. Other than `Remembers`, this does not ask whether they still stand in the slots, which
writing statements may overwrite if the slots are not apart. -/
structure Caches (b : Broker) (i : Interpreter) (slots : SlotNames) (current : Bindings) :
    Prop where
  interpreter : b.session.interpreter = i
  slots : b.slots = slots
  lastRead : b.lastRead = current
  shared : b.slots.names = b.slots.values → current = .empty

private theorem caches_ofSession (session : Session) (slots : SlotNames) :
    (ofSession session slots).Caches session.interpreter slots .empty :=
  ⟨rfl, rfl, rfl, fun _ => rfl⟩

private theorem Caches.evaluateContext (h : b.Caches i slots current) {lines : List String}
    (hevaluate : b.evaluateContext lines = .ok (b', bound)) :
    b'.Caches i slots bound ∧
      ((∃ found, i.evaluateLines lines = .ok found ∧ bound = slots.readBack found) ∨
        (∃ problems, i.evaluateLines lines = .error problems) ∧ bound = current) := by
  obtain ⟨rfl, rfl, rfl, hshared⟩ := h
  have hcontext : b.slots.context ≠ "" := by
    intro hempty
    rw [evaluateContext_of_empty hempty] at hevaluate
    cases hevaluate
  cases hlines : b.session.interpreter.evaluateLines lines with
  | error problems =>
    rw [evaluateContext_of_error hcontext hlines] at hevaluate
    cases hevaluate
    exact ⟨⟨rfl, rfl, rfl, hshared⟩, Or.inr ⟨⟨problems, rfl⟩, rfl⟩⟩
  | ok found =>
    by_cases hnames : b.slots.names = b.slots.values
    · have hread : ((b.holding lines).capturing found).session.captured? b.slots = none :=
        Session.captured?_of_shared _ hnames
      have hnothing : b.slots.readBack found = .empty := if_pos hnames
      rw [evaluateContext_of_ok hcontext hlines, readContext_of_none hread] at hevaluate
      cases hevaluate
      exact ⟨⟨rfl, rfl, hshared hnames, fun _ => rfl⟩, Or.inl ⟨found, rfl, hnothing.symm⟩⟩
    · have hall : b.slots.readBack found = found := if_neg hnames
      rw [evaluateContext_of_evaluates ⟨hcontext, hnames⟩ hlines] at hevaluate
      cases hevaluate
      exact ⟨⟨rfl, rfl, rfl, fun h => absurd h hnames⟩, Or.inl ⟨_, rfl, hall.symm⟩⟩

end Broker

namespace Lending

variable {s : Lending} {i : Interpreter} {slots : SlotNames}

/-- Whether one of the requests evaluates a statement that assigns the name. -/
def AssignedBy (requests : List Request) (name : String) : Prop :=
  ∃ request ∈ requests, ∃ lines, request.statements? = some lines ∧
    ∃ line ∈ lines, Assigns line name

structure Accounts (s : Lending) (i : Interpreter) (slots : SlotNames)
    (events : List (Request × Reply)) : Prop where
  caches : s.broker.Caches i slots (latest i events)
  assigned : ∀ name ∈ (latest i events).keys, AssignedBy (events.map Prod.fst) name

private theorem AssignedBy.concat {requests : List Request} {name : String}
    (h : AssignedBy requests name)
    (request : Request) : AssignedBy (requests ++ [request]) name := by
  obtain ⟨earlier, hearlier, hlines⟩ := h
  exact ⟨earlier, List.mem_append_left _ hearlier, hlines⟩

/-- One step of a run. -/
theorem Accounts.serve {events : List (Request × Reply)} (h : s.Accounts i slots events)
    {request : Request} {p : Properties} {maxDepth : Nat} {node : Node}
    (hat : request.AtNode p maxDepth node) :
    (s.serve request).1.Accounts i slots (events ++ [(request, (s.serve request).2)]) := by
  have hkept : ∀ name ∈ (latest i events).keys,
      AssignedBy ((events ++ [(request, (s.serve request).2)]).map Prod.fst) name := by
    intro name hname
    rw [List.map_append]
    exact (h.assigned name hname).concat request
  rcases s.serve_atNode hat with ⟨hsame, hnone⟩ | ⟨bound, -, hnode, hbound⟩
  · have hlatest : latest i (events ++ [(request, (s.serve request).2)]) = latest i events := by
      rw [latest_concat, evaluated?_of_no_variables hnone, Option.getD_none]
    exact ⟨by rw [hlatest, hsame]; exact h.caches, by rw [hlatest]; exact hkept⟩
  · obtain ⟨lines, hresolve, hevaluate⟩ := Broker.evaluateNode_eq_ok_iff.1 hnode
    have hlines : request.statements? = some lines :=
      hat.statements?_eq.trans (congrArg Except.toOption hresolve)
    obtain ⟨hcaches, hgiven⟩ := h.caches.evaluateContext hevaluate
    have hlatest : latest i (events ++ [(request, (s.serve request).2)]) = bound := by
      rw [latest_concat, evaluated?_of_statements hlines, hbound]
      rcases hgiven with ⟨found, hfound, -⟩ | ⟨⟨problems, hproblems⟩, hcurrent⟩
      · rw [hfound]
        rfl
      · rw [hproblems, hcurrent]
        rfl
    refine ⟨by rw [hlatest]; exact hcaches, fun name hname => ?_⟩
    rw [hlatest] at hname
    rcases hgiven with ⟨found, hfound, rfl⟩ | ⟨-, rfl⟩
    · obtain ⟨line, hline, hassigns⟩ :=
        (Script.mem_keys_iff_assigns hfound).1 (SlotNames.mem_keys_of_readBack hname)
      exact ⟨request, by simp, lines, hlines, line, hline, hassigns⟩
    · exact hkept name hname

private theorem Accounts.serveAll {events : List (Request × Reply)} (h : s.Accounts i slots events)
    {requests : List Request}
    (hrequests : ∀ request ∈ requests, ∃ p maxDepth node, request.AtNode p maxDepth node) :
    (s.serveAll requests).Accounts i slots (events ++ s.history requests) := by
  refine preserves_serveAll (P := fun s events => s.Accounts i slots events) ?_ h
  intro request hmem s events hbefore
  obtain ⟨p, maxDepth, node, hat⟩ := hrequests request hmem
  exact hbefore.serve hat

private theorem map_fst_history (s : Lending) (requests : List Request) :
    (s.history requests).map Prod.fst = requests := by
  induction requests generalizing s with
  | nil => rfl
  | cons request requests ih => exact congrArg (request :: ·) (ih (s.serve request).1)

private theorem serve_openMask_eq_opened {p : Properties} {maxDepth : Nat} {node : Node}
    {c : Customization} (h : (s.serve (.openMask p maxDepth node)).2 = .opened c) :
    ∃ b, Customization.openMask s.broker p maxDepth node = (b, .ok (some c)) := by
  simp only [serve, settle] at h
  generalize Customization.openMask s.broker p maxDepth node = result at h
  obtain ⟨b, outcome⟩ := result
  cases outcome with
  | error failure => cases h
  | ok opened =>
    cases opened with
    | none => cases h
    | some opened =>
      obtain rfl := Reply.opened.inj h
      exact ⟨b, rfl⟩

/-- An open mask offers variables that are in scope, as far as its context can be evaluated. Behind
evaluations at nodes and openings of masks only, its variables are those that the statements in
effect at its node give if they can be evaluated, and these statements assign them. If they cannot,
its variables are those that the last successful evaluation gave, and statements in effect at the
node of an earlier request assign them. Whatever is edited, a new row has the name of a variable of
the mask or a generated name that none of them has. -/
theorem open_masks_offer_assigned_names {session : Session} {requests : List Request}
    (hrequests : ∀ request ∈ requests, ∃ p maxDepth node, request.AtNode p maxDepth node)
    {p : Properties} {maxDepth : Nat} {node : Node} {c : Customization}
    (hopen : (((start session slots).serveAll requests).serve (.openMask p maxDepth node)).2 =
      .opened c) :
    ∃ statements, Resolution.resolve p maxDepth node = .ok statements ∧
      (∀ bound, session.interpreter.evaluateLines statements = .ok bound →
        c.context = slots.readBack bound ∧
          ∀ name ∈ c.context.keys, ∃ line ∈ statements, Assigns line name) ∧
      ((∃ problems, session.interpreter.evaluateLines statements = .error problems) →
        c.context = latest session.interpreter ((start session slots).history requests) ∧
          ∀ name ∈ c.context.keys, AssignedBy requests name) ∧
      ∀ edits d, c.editAll? edits = some d →
        ∃ row, d.insertRow.entries = d.entries ++ [row] ∧
          (row.name ∈ c.context.keys ∨
            ∃ n, row.name = Customization.generatedName n ∧ row.name ∉ c.context.keys) := by
  have hstart : (start session slots).Accounts session.interpreter slots [] :=
    ⟨Broker.caches_ofSession session slots, nofun⟩
  have hrun := hstart.serveAll hrequests
  rw [List.nil_append] at hrun
  obtain ⟨b, hmask⟩ := serve_openMask_eq_opened hopen
  obtain ⟨-, bound, mask, hnode, -, rfl⟩ := Customization.openMask_eq_some_iff.1 hmask
  obtain ⟨statements, hresolve, hevaluate⟩ := Broker.evaluateNode_eq_ok_iff.1 hnode
  refine ⟨statements, hresolve, ?_, ?_, ?_⟩
  · intro found hfound
    rcases (hrun.caches.evaluateContext hevaluate).2 with ⟨_, hfound', rfl⟩ | ⟨⟨_, herror⟩, -⟩
    · obtain rfl := Except.ok.inj (hfound.symm.trans hfound')
      refine ⟨rfl, fun name hname => ?_⟩
      exact (Script.mem_keys_iff_assigns hfound).1 (SlotNames.mem_keys_of_readBack hname)
    · cases hfound.symm.trans herror
  · rintro ⟨problems, hproblems⟩
    rcases (hrun.caches.evaluateContext hevaluate).2 with ⟨_, hfound, -⟩ | ⟨-, rfl⟩
    · cases hfound.symm.trans hproblems
    · refine ⟨rfl, fun name hname => ?_⟩
      have hassigned := hrun.assigned name hname
      rwa [map_fst_history] at hassigned
  · intro edits d hedits
    obtain ⟨row, hrow, hname⟩ := Customization.exists_insertRow d
    have hscope := (Customization.sameScope_of_editAll? hedits).context
    refine ⟨row, hrow, ?_⟩
    rcases hname with ⟨hmem, -⟩ | ⟨n, hn, hfree⟩
    · exact Or.inl (hscope ▸ hmem)
    · exact Or.inr ⟨n, hn, hscope ▸ ((Customization.isFree_iff d).1 hfree).1⟩

def apartDiagrams : Store :=
  ((Store.empty.update (.diagram 1) fun data => { data with context := ["x = \"a\""] }).update
    (.diagram 2) fun data => { data with context := ["y = ("] }).update
      (.block 3) fun data => { data with context := ["z = x"], parentDiagram := some 1 }

def replyBehind (requests : List Request) (node : Node) : Reply :=
  (((start .fresh .default).serveAll requests).serve (.openMask apartDiagrams.properties 4 node)).2

def Reply.offered : Reply → Option (List String × List String)
  | .opened c => some (c.context.keys, c.insertRow.mask.names)
  | _ => none

private theorem Reply.exists_of_offered {reply : Reply} {names rows : List String}
    (h : reply.offered = some (names, rows)) :
    ∃ c, reply = .opened c ∧ c.context.keys = names ∧ c.insertRow.mask.names = rows := by
  cases reply with
  | opened c =>
    obtain ⟨rfl, rfl⟩ := Prod.mk.inj (Option.some.inj h)
    exact ⟨c, rfl, rfl, rfl⟩
  | _ => cases h

theorem open_masks_offer_assigned_names_block :
    ∃ c, replyBehind [.evaluateAt apartDiagrams.properties 4 (.diagram 2),
        .openMask apartDiagrams.properties 4 (.diagram 1)] (.block 3) = .opened c ∧
      c.context.keys = ["x", "z"] ∧
        Resolution.resolve apartDiagrams.properties 4 (.block 3) =
            .ok ["x = \"a\"", "", "z = x", ""] ∧
          ∀ name ∈ c.context.keys, ∃ line ∈ ["x = \"a\"", "", "z = x", ""], Assigns line name := by
  have hoffered : (replyBehind [.evaluateAt apartDiagrams.properties 4 (.diagram 2),
      .openMask apartDiagrams.properties 4 (.diagram 1)] (.block 3)).offered =
        some (["x", "z"], ["x"]) := by decide +kernel
  have hresolve : Resolution.resolve apartDiagrams.properties 4 (.block 3) =
      .ok ["x = \"a\"", "", "z = x", ""] := by
    unfold Resolution.resolve Hierarchy.above? Hierarchy.aboveWith Hierarchy.climbWith
    rfl
  have hevaluate : Interpreter.fresh.evaluateLines ["x = \"a\"", "", "z = x", ""] =
      .ok ((OrderedMap.empty.insert "x" (.text "a")).insert "z" (.text "a")) := by decide +kernel
  have hrequests : ∀ request ∈ ([.evaluateAt apartDiagrams.properties 4 (.diagram 2),
      .openMask apartDiagrams.properties 4 (.diagram 1)] : List Request),
        ∃ p maxDepth node, request.AtNode p maxDepth node := by
    intro request hrequest
    rcases List.mem_pair.1 hrequest with rfl | rfl
    · exact ⟨_, _, _, .evaluateAt⟩
    · exact ⟨_, _, _, .openMask⟩
  obtain ⟨c, hopen, hkeys, -⟩ := Reply.exists_of_offered hoffered
  obtain ⟨statements, hresolve', hassigned, -⟩ := open_masks_offer_assigned_names hrequests hopen
  obtain rfl := Except.ok.inj (hresolve.symm.trans hresolve')
  exact ⟨c, hopen, hkeys, hresolve, (hassigned _ hevaluate).2⟩

/-- A mask can offer a variable that nothing in effect at its node assigns: one that was read at
another node before, if its own context cannot be evaluated. -/
theorem unrelated_names_are_offered :
    ∃ c, replyBehind [.evaluateAt apartDiagrams.properties 4 (.diagram 1)] (.diagram 2) =
        .opened c ∧
      c.context.keys = ["x"] ∧ c.insertRow.mask.names = ["x"] ∧
        ∃ statements, Resolution.resolve apartDiagrams.properties 4 (.diagram 2) = .ok statements ∧
          ¬ ∃ line ∈ statements, Assigns line "x" := by
  have hoffered : (replyBehind [.evaluateAt apartDiagrams.properties 4 (.diagram 1)]
      (.diagram 2)).offered = some (["x"], ["x"]) := by decide +kernel
  obtain ⟨c, hopen, hkeys, hrows⟩ := Reply.exists_of_offered hoffered
  exact ⟨c, hopen, hkeys, hrows, ["y = (", ""], rfl, by decide +kernel⟩

end Lending

end DiagramScope
