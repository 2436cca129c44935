import DiagramScope.Proofs.Customization.Opening
import Mathlib.Order.Basic

/-!
Masks that are edited, saved and opened again. Main statement: whatever the edits were, the mask
that they end in can be saved, saving changes nothing else in the store, and opening gives it back.
-/

set_option autoImplicit false
set_option relaxedAutoImplicit false

namespace DiagramScope.Customization

open Script (Bindings)

inductive Edit where
  | insertRow
  | removeRow (selected : Option Nat)
  | moveUp (index : UInt64)
  | moveDown (index : UInt64)
  | setRowCount (count : Nat)
  | setTitle (title : String)
  | setEntry (index : Nat) (entry : Mask.Entry)

/-- Makes a change. Replacing a row that does not exist is refused and changes nothing. There is no
result if an exchange of rows lacks a row. -/
def edit? (c : Customization) : Edit → Option Customization
  | .insertRow => some c.insertRow
  | .removeRow selected => some (c.removeRow selected).1
  | .moveUp index => (c.moveUp index).map Prod.fst
  | .moveDown index => (c.moveDown index).map Prod.fst
  | .setRowCount count => some (c.setRowCount count)
  | .setTitle title => some (c.setTitle title)
  | .setEntry index entry =>
    match c.setEntry index entry with
    | .ok changed => some changed
    | .error _ => some c

def editAll? (c : Customization) (edits : List Edit) : Option Customization :=
  edits.foldlM edit? c

section Edits

/-- Whether two states of editing differ in the mask only. -/
structure SameScope (c d : Customization) : Prop where
  node : d.node = c.node
  context : d.context = c.context

private theorem SameScope.refl (c : Customization) : c.SameScope c := ⟨rfl, rfl⟩

theorem SameScope.trans {c d e : Customization} (hcd : c.SameScope d) (hde : d.SameScope e) :
    c.SameScope e :=
  ⟨hde.node.trans hcd.node, hde.context.trans hcd.context⟩

variable {c d : Customization}

private theorem sameScope_insertRows (c : Customization) (count : Nat) :
    c.SameScope (c.insertRows count) := by
  induction count generalizing c with
  | zero => exact .refl c
  | succ count ih =>
    have hrow : c.SameScope c.insertRow := ⟨rfl, rfl⟩
    exact hrow.trans (ih c.insertRow)

inductive Moved (c : Customization) : Customization → Prop where
  | stays : Moved c c
  | exchanges {i j : Nat} {rows : List Mask.Entry} (h : exchange? c.entries i j = some rows) :
    Moved c (c.withEntries rows)

theorem moved_of_moveUp {index : UInt64} {flag : Bool} (h : c.moveUp index = some (d, flag)) :
    c.Moved d := by
  unfold moveUp at h
  split at h
  · cases h
    exact .stays
  · obtain ⟨rows, hrows, hmoved⟩ := Option.map_eq_some_iff.1 h
    cases hmoved
    exact .exchanges hrows

theorem moved_of_moveDown {index : UInt64} {flag : Bool} (h : c.moveDown index = some (d, flag)) :
    c.Moved d := by
  unfold moveDown at h
  split at h
  · cases h
    exact .stays
  · obtain ⟨rows, hrows, hmoved⟩ := Option.map_eq_some_iff.1 h
    cases hmoved
    exact .exchanges hrows

private theorem Moved.sameScope (h : c.Moved d) : c.SameScope d := by
  cases h with
  | stays => exact .refl c
  | exchanges => exact ⟨rfl, rfl⟩

private theorem sameScope_setEntry {index : Nat} {entry : Mask.Entry}
    (h : c.setEntry index entry = .ok d) : c.SameScope d := by
  unfold setEntry at h
  split at h
  · cases h
    exact ⟨rfl, rfl⟩
  · cases h

private theorem sameScope_of_edit? {edit : Edit} (h : c.edit? edit = some d) : c.SameScope d := by
  cases edit with
  | insertRow =>
    cases h
    exact ⟨rfl, rfl⟩
  | removeRow selected =>
    cases h
    exact ⟨rfl, rfl⟩
  | moveUp index =>
    obtain ⟨⟨_, moved⟩, hmove, rfl⟩ := Option.map_eq_some_iff.1 h
    exact (moved_of_moveUp hmove).sameScope
  | moveDown index =>
    obtain ⟨⟨_, moved⟩, hmove, rfl⟩ := Option.map_eq_some_iff.1 h
    exact (moved_of_moveDown hmove).sameScope
  | setRowCount count =>
    cases h
    exact (sameScope_insertRows c (count - c.size)).trans ⟨rfl, rfl⟩
  | setTitle title =>
    cases h
    exact ⟨rfl, rfl⟩
  | setEntry index entry =>
    simp only [edit?] at h
    split at h
    · next changed hset =>
      cases h
      exact sameScope_setEntry hset
    · cases h
      exact .refl c

/-- What every one of some changes keeps is kept by all of them, one after the other. -/
theorem preserves_editAll? {P : Customization → Prop} {edits : List Edit}
    (hstep : ∀ edit ∈ edits, ∀ c d, edit? c edit = some d → P c → P d)
    (h : c.editAll? edits = some d) (hc : P c) : P d := by
  induction edits generalizing c with
  | nil =>
    cases h
    exact hc
  | cons edit edits ih =>
    obtain ⟨changed, hedit, hrest⟩ := Option.bind_eq_some_iff.1 h
    obtain ⟨hfirst, hmore⟩ := List.forall_mem_cons.1 hstep
    exact ih hmore hrest (hfirst c changed hedit hc)

theorem sameScope_of_editAll? {edits : List Edit} (h : c.editAll? edits = some d) :
    c.SameScope d :=
  preserves_editAll? (fun _ _ _ _ hedit hbefore => hbefore.trans (sameScope_of_edit? hedit)) h
    (.refl c)

end Edits

section Reopening

variable {b b₁ : Broker} {s : Store} {maxDepth : Nat} {node : Node} {c d : Customization}

private theorem alike_of_openMask {p : Properties}
    (h : openMask b p maxDepth node = (b₁, .ok (some c))) :
    b.held = false ∧ b.slots.context ≠ "" ∧ b.Alike b₁ := by
  obtain ⟨hfree, bound, _, hnode, -, -⟩ := openMask_eq_some_iff.1 h
  obtain ⟨statements, -, hcontext⟩ := Broker.evaluateNode_eq_ok_iff.1 hnode
  refine ⟨hfree, fun hempty => ?_, Broker.alike_of_evaluateNode hnode⟩
  rw [Broker.evaluateContext_of_empty hempty] at hcontext
  cases hcontext

/-- The mask that is stored for a node is opened wherever the context could be resolved before it
was stored. -/
theorem exists_openMask_of_agreesExcept {p q : Properties}
    (hagrees : p.AgreesExcept q node .maskExprs)
    {statements : List String} (hresolve : Resolution.resolve p maxDepth node = .ok statements)
    {mask : Mask} (hmask : Resolution.storedMask q node = .ok (some mask)) (hfree : b.held = false)
    (hslots : b.slots.context ≠ "") :
    ∃ b' bound, openMask b q maxDepth node = (b', .ok (some ⟨node, mask, bound⟩)) := by
  obtain ⟨_, _, _, _, _, hresolve'⟩ := Resolution.resolve_of_agreesExcept hagrees hresolve
  obtain ⟨b', bound, hcontext⟩ := Broker.exists_evaluateContext hslots _
  have hnode := Broker.evaluateNode_eq_ok_iff.2 ⟨_, hresolve' _ hmask, hcontext⟩
  exact ⟨b', bound, openMask_eq_some_iff.2 ⟨hfree, bound, _, hnode, hmask, rfl⟩⟩

/-- Editing, saving and opening again loses nothing. If the mask of a node can be opened, the mask
that any changes to it end in can be saved. Saving keeps the order of the nodes and all properties
but the mask of the node. The broker that opened the mask is free again, and it, like any other free
broker with its slots, opens the mask that was saved. The storage format alone loses nothing
either. -/
theorem edited_masks_survive_reopening {edits : List Edit}
    (hopen : openMask b s.properties maxDepth node = (b₁, .ok (some c)))
    (hedits : c.editAll? edits = some d) :
    (∃ s', d.save s = .ok s' ∧ s'.nodeList = s.nodeList ∧
        s.properties.AgreesExcept s'.properties node .maskExprs ∧
          ∀ b₂ : Broker, b₂.held = false → b₂.slots = b.slots →
            ∃ b₃ e, openMask b₂ s'.properties maxDepth node = (b₃, .ok (some e)) ∧
              e.mask = d.mask) ∧
      (b₁.held = false ∧ b₁.slots = b.slots) ∧ ∀ m : Mask, Mask.decode (Mask.encode m) = .ok m := by
  obtain ⟨hfree, hslots, halike⟩ := alike_of_openMask hopen
  obtain ⟨-, bound, mask, hnode, -, rfl⟩ := openMask_eq_some_iff.1 hopen
  obtain ⟨statements, hresolve, -⟩ := Broker.evaluateNode_eq_ok_iff.1 hnode
  obtain ⟨_, _, lines, _, _, _, hlines, _, _⟩ := Resolution.resolve_own_eq_ok_iff.1 hresolve
  obtain ⟨s', hsave, hnodes, hmask, hagrees⟩ :=
    exists_save hlines (sameScope_of_editAll? hedits).node
  refine ⟨⟨s', hsave, hnodes, hagrees, fun b₂ hfree₂ hslots₂ => ?_⟩,
    ⟨halike.held.trans hfree, halike.slots⟩, Mask.decode_encode⟩
  obtain ⟨b₃, bound', hopen₂⟩ :=
    exists_openMask_of_agreesExcept hagrees hresolve hmask hfree₂ (hslots₂ ▸ hslots)
  exact ⟨b₃, _, hopen₂, rfl⟩

def maskedBlock : Store :=
  (Store.empty.update (.diagram 1) fun data => { data with context := ["a = 'far'"] }).update
    (.block 2) fun data =>
      { data with
        context := ["b = a"], parentDiagram := some 1,
        exprs := some (Mask.encode ⟨"Gains", [⟨"k", "'own'", ""⟩]⟩) }

def maskedBlockEdits : List Edit :=
  [.setRowCount 4, .moveUp 1, .removeRow (some 1), .setEntry 9 ⟨"", "", ""⟩, .setTitle ""]

theorem edited_masks_survive_reopening_reordered :
    ∃ b₁ c d, openMask (.fresh .default) maskedBlock.properties 8 (.block 2) = (b₁, .ok (some c)) ∧
      c.editAll? maskedBlockEdits = some d ∧ d.mask.names = ["a", "b", "generatedVar0"] ∧
        (∃ s', d.save maskedBlock = .ok s' ∧ s'.nodeList = maskedBlock.nodeList ∧
            maskedBlock.properties.AgreesExcept s'.properties (.block 2) .maskExprs ∧
              ∀ b₂ : Broker, b₂.held = false → b₂.slots = .default →
                ∃ b₃ e, openMask b₂ s'.properties 8 (.block 2) = (b₃, .ok (some e)) ∧
                  e.mask = d.mask) ∧
          (b₁.held = false ∧ b₁.slots = .default) ∧
            ∀ m : Mask, Mask.decode (Mask.encode m) = .ok m := by
  have hresolve : Resolution.resolve maskedBlock.properties 8 (.block 2) =
      .ok ["a = 'far'", "", "b = a", "", "k = 'own'"] := by decide +kernel
  have hevaluate : Script.Interpreter.fresh.evaluateLines
      ["a = 'far'", "", "b = a", "", "k = 'own'"] =
        .ok (.ofList [("a", .text "far"), ("b", .text "far"), ("k", .text "own")]) := by
    decide +kernel
  have hmask : Resolution.storedMask maskedBlock.properties (.block 2) =
      .ok (some ⟨"Gains", [⟨"k", "'own'", ""⟩]⟩) := rfl
  obtain ⟨b₁, hopen⟩ := exists_openMask (b := .fresh .default) rfl SlotNames.distinct_default
    hresolve hevaluate hmask
  obtain ⟨d, hedits, hnames⟩ : ∃ d,
      editAll? ⟨.block 2, ⟨"Gains", [⟨"k", "'own'", ""⟩]⟩,
          .ofList [("a", .text "far"), ("b", .text "far"), ("k", .text "own")]⟩ maskedBlockEdits =
        some d ∧ d.mask.names = ["a", "b", "generatedVar0"] := ⟨_, rfl, rfl⟩
  exact ⟨b₁, _, d, hopen, hedits, hnames, edited_masks_survive_reopening hopen hedits⟩

end Reopening

end DiagramScope.Customization
