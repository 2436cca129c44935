import DiagramScope.Customization
import DiagramScope.Proofs.Broker
import DiagramScope.Proofs.Mask.Codec
import DiagramScope.Proofs.Resolution.Rewriting

/-!
Opening and saving masks. Main statements: a mask is opened exactly where a free broker can evaluate
at the node, and what is saved is the mask that is stored from then on.
-/

set_option autoImplicit false
set_option relaxedAutoImplicit false

namespace DiagramScope

open Script (Bindings)

namespace Resolution

private theorem exists_storedMask {p : Properties} {maxDepth : Nat} {node : Node}
    {statements : List String}
    (h : resolve p maxDepth node = .ok statements) : ∃ mask, storedMask p node = .ok mask := by
  obtain ⟨_, _, _, mask, _, _, _, hmask, _⟩ := resolve_own_eq_ok_iff.1 h
  exact ⟨mask, hmask⟩

end Resolution

namespace Customization

section Open

variable {b b' : Broker} {p : Properties} {maxDepth : Nat} {node : Node}

theorem openMask_of_held (h : b.held = true) (p : Properties) (maxDepth : Nat) (node : Node) :
    openMask b p maxDepth node = (b, .ok none) := by
  unfold openMask
  rw [Broker.evaluateAt_of_held h]

theorem openMask_of_fails (hfree : b.held = false) {failure : Failure}
    (h : b.evaluateNode p maxDepth node = .error failure) :
    openMask b p maxDepth node = (b, .error failure) := by
  unfold openMask
  rw [Broker.evaluateAt_of_free hfree, h]

/-- A mask that was not rejected while the context was resolved is not rejected afterwards. -/
theorem exists_openMask_of_evaluateNode (hfree : b.held = false) {bound : Bindings}
    (h : b.evaluateNode p maxDepth node = .ok (b', bound)) :
    ∃ mask, Resolution.storedMask p node = .ok mask ∧
      openMask b p maxDepth node = (b', .ok (some ⟨node, mask.getD .default, bound⟩)) := by
  obtain ⟨statements, hresolve, -⟩ := Broker.evaluateNode_eq_ok_iff.1 h
  obtain ⟨mask, hmask⟩ := Resolution.exists_storedMask hresolve
  refine ⟨mask, hmask, ?_⟩
  unfold openMask startingMask
  simp only [Broker.evaluateAt_of_free hfree, h, hmask]
  rfl

/-- Opening a mask is evaluating at its node with a free broker and reading the mask. -/
theorem openMask_eq_some_iff {c : Customization} :
    openMask b p maxDepth node = (b', .ok (some c)) ↔
      b.held = false ∧ ∃ bound mask, b.evaluateNode p maxDepth node = .ok (b', bound) ∧
        Resolution.storedMask p node = .ok mask ∧ c = ⟨node, mask.getD .default, bound⟩ := by
  constructor
  · intro h
    cases hheld : b.held with
    | true =>
      rw [openMask_of_held hheld] at h
      cases h
    | false =>
      cases hnode : b.evaluateNode p maxDepth node with
      | error failure =>
        rw [openMask_of_fails hheld hnode] at h
        cases h
      | ok result =>
        obtain ⟨mask, hmask, hopen⟩ := exists_openMask_of_evaluateNode hheld hnode
        rw [hopen] at h
        cases h
        exact ⟨rfl, _, mask, rfl, hmask, rfl⟩
  · rintro ⟨hfree, bound, mask, hnode, hmask, rfl⟩
    obtain ⟨mask', hmask', hopen⟩ := exists_openMask_of_evaluateNode hfree hnode
    obtain rfl := Except.ok.inj (hmask.symm.trans hmask')
    exact hopen

theorem exists_openMask (hfree : b.held = false) (hslots : b.slots.Distinct)
    {statements : List String} {mask : Option Mask} {bound : Bindings}
    (hresolve : Resolution.resolve p maxDepth node = .ok statements)
    (hevaluate : b.session.interpreter.evaluateLines statements = .ok bound)
    (hmask : Resolution.storedMask p node = .ok mask) :
    ∃ b', openMask b p maxDepth node = (b', .ok (some ⟨node, mask.getD .default, bound⟩)) := by
  have hcontext := Broker.evaluateContext_of_evaluates hslots hevaluate
  have hnode := Broker.evaluateNode_eq_ok_iff.2 ⟨statements, hresolve, hcontext⟩
  exact ⟨_, openMask_eq_some_iff.2 ⟨hfree, bound, mask, hnode, hmask, rfl⟩⟩

end Open

theorem exists_save {s : Store} {node : Node} {lines : List String}
    (h : s.properties.rawContext node = .ok lines) {c : Customization} (hnode : c.node = node) :
    ∃ s', c.save s = .ok s' ∧ s'.nodeList = s.nodeList ∧
      Resolution.storedMask s'.properties node = .ok (some c.mask) ∧
        s.properties.AgreesExcept s'.properties node .maskExprs := by
  obtain ⟨data, hdata⟩ := Store.exists_of_rawContext h
  obtain ⟨s', hset, hwritten⟩ :=
    Store.exists_written hdata (.exprs (some (Mask.encode c.mask))) rfl
  have hmask : s'.properties.maskExprs node = .ok (some (Mask.encode c.mask)) :=
    Except.bind_eq_ok_iff.2 ⟨_, hwritten.value, rfl⟩
  refine ⟨s', ?_, hwritten.nodes, ?_, hwritten.agrees⟩
  · change Failure.ofStore (s.set c.node .maskExprs _) = _
    rw [hnode]
    exact Failure.ofStore_eq_ok_iff.2 hset
  · refine Except.bind_eq_ok_iff.2 ⟨_, Failure.ofStore_eq_ok_iff.2 hmask, ?_⟩
    exact Except.map_eq_ok_iff.2
      ⟨c.mask, Failure.ofShape_eq_ok_iff.2 (Mask.decode_encode c.mask), rfl⟩

end Customization

end DiagramScope
