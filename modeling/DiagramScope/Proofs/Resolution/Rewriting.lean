import DiagramScope.Proofs.Resolution.Scoping
import DiagramScope.Proofs.Store

/-!
Contexts after a write. Main statements: a context depends on the properties of the nodes of its
chain only; and where a mask was stored, the context of its node changes in the assignments of this
mask only, which come last.
-/

set_option autoImplicit false
set_option relaxedAutoImplicit false

namespace DiagramScope.Resolution

variable {p q : Properties} {node : Node} {maxDepth : Nat}

theorem above?_of_agreesExcept {other : Node} {key : PropertyKey} (h : p.AgreesExcept q other key)
    (hkey : Store.isParentKey key = false) :
    Hierarchy.above? q maxDepth node = Hierarchy.above? p maxDepth node := by
  refine Hierarchy.above?_congr (fun node' key' _ hparent => h node' key' (Or.inr ?_)) maxDepth
  rintro rfl
  rw [hkey] at hparent
  cases hparent

private theorem rawContext_congr (h : q node .rawContext = p node .rawContext) :
    q.rawContext node = p.rawContext node := by
  unfold Properties.rawContext
  rw [h]

theorem storedMask_congr (h : q node .maskExprs = p node .maskExprs) :
    storedMask q node = storedMask p node := by
  unfold storedMask Properties.maskExprs
  rw [h]

theorem segment_congr (h : ∀ key, Store.isParentKey key = false → q node key = p node key) :
    segment q node = segment p node := by
  unfold segment maskAssignments Properties.rawContext Properties.maskExprs
  rw [h .rawContext rfl, h .maskExprs rfl]

/-- A context depends on its chain only, whether it can be resolved or not. -/
theorem resolve_congr (h : ∀ node' key, p.InChain node node' → q node' key = p node' key) :
    resolve q maxDepth node = resolve p maxDepth node := by
  have habove := Hierarchy.above?_congr (fun node' key hchain _ => h node' key hchain) maxDepth
  unfold resolve
  rw [habove]
  cases hhierarchy : Hierarchy.above? p maxDepth node with
  | error failure => rfl
  | ok k =>
    have hsegments : k.rootFirst.mapM (segment q) = k.rootFirst.mapM (segment p) := by
      refine Except.mapM_congr fun node' hmem => segment_congr fun key _ => h node' key ?_
      exact (Hierarchy.mem_nodes_iff_inChain hhierarchy).1 (List.mem_reverse.1 hmem)
    exact congrArg (Except.map List.flatten) hsegments

theorem resolve_of_agreesExcept (h : p.AgreesExcept q node .maskExprs)
    {statements : List String} (hresolve : resolve p maxDepth node = .ok statements) :
    ∃ around lines mask, storedMask p node = .ok mask ∧
      statements = around ++ ownStatements lines mask ∧
        ∀ mask', storedMask q node = .ok mask' →
          resolve q maxDepth node = .ok (around ++ ownStatements lines mask') := by
  obtain ⟨k, before, lines, mask, habove, hbefore, hlines, hmask, rfl⟩ :=
    resolve_own_eq_ok_iff.1 hresolve
  refine ⟨before.flatten, lines, mask, hmask, rfl, ?_⟩
  intro mask' hmask'
  refine resolve_own_eq_ok_iff.2 ⟨k, before, lines, mask', ?_, ?_, ?_, hmask', rfl⟩
  · exact (above?_of_agreesExcept h rfl).trans habove
  · rw [← hbefore]
    refine Except.mapM_congr fun node' hnode' => segment_congr fun key _ => h node' key (Or.inl ?_)
    rintro rfl
    exact (Hierarchy.start_not_mem_above habove).2 (List.mem_reverse.1 hnode')
  · exact (rawContext_congr (h node .rawContext (Or.inr nofun))).trans hlines

end DiagramScope.Resolution
