import DiagramScope.Proofs.Hierarchy
import DiagramScope.Proofs.Script.Evaluation.Layers
import DiagramScope.Resolution

/-!
Contexts are lexical scopes. Main statement: the context of a block is the context of the node that
encloses it and then the block's own statements, which are evaluated over the bindings of the
enclosing context and override them.
-/

set_option autoImplicit false
set_option relaxedAutoImplicit false

namespace DiagramScope.Resolution

open Script (Bindings Interpreter)

variable {p : Properties} {maxDepth : Nat}

def assignmentsOf (mask : Option Mask) : List String := (mask.map Mask.assignments).getD []

/-- The statements that a block adds to the context around it. -/
def ownStatements (lines : List String) (mask : Option Mask) : List String :=
  lines ++ "" :: assignmentsOf mask

private theorem ownStatements_ne_nil (lines : List String) (mask : Option Mask) :
    ownStatements lines mask ≠ [] := by
  simp [ownStatements]

theorem segment_eq_ok_iff {node : Node} {statements : List String} :
    segment p node = .ok statements ↔
      ∃ lines mask, p.rawContext node = .ok lines ∧ storedMask p node = .ok mask ∧
        statements = ownStatements lines mask := by
  have hmask : maskAssignments p node = (storedMask p node).map assignmentsOf := by
    unfold maskAssignments storedMask
    cases p.maskExprs node with
    | error fault => rfl
    | ok stored =>
      cases stored with
      | none => rfl
      | some wire =>
        change (do
          let mask ← Failure.ofShape (Mask.decode wire)
          pure mask.assignments) =
            ((Failure.ofShape (Mask.decode wire)).map some).map assignmentsOf
        cases Mask.decode wire <;> rfl
  unfold segment
  rw [hmask]
  simp only [Except.bind_eq_ok_iff, Failure.ofStore_eq_ok_iff, Except.map_eq_ok_iff]
  constructor
  · rintro ⟨lines, hlines, _, ⟨mask, hmask, rfl⟩, hpure⟩
    exact ⟨lines, mask, hlines, hmask, (Except.ok.inj hpure).symm⟩
  · rintro ⟨lines, mask, hlines, hmask, rfl⟩
    exact ⟨lines, hlines, _, ⟨mask, hmask, rfl⟩, rfl⟩

theorem resolve_eq_ok_iff {node : Node} {statements : List String} :
    resolve p maxDepth node = .ok statements ↔
      ∃ h segments, Hierarchy.above? p maxDepth node = .ok h ∧
        h.rootFirst.mapM (segment p) = .ok segments ∧ statements = segments.flatten := by
  unfold resolve
  simp only [Except.bind_eq_ok_iff]
  constructor
  · rintro ⟨h, habove, segments, hsegments, hpure⟩
    exact ⟨h, segments, habove, hsegments, (Except.ok.inj hpure).symm⟩
  · rintro ⟨h, segments, habove, hsegments, rfl⟩
    exact ⟨h, habove, segments, hsegments, rfl⟩

/-- The context of a block is the context around it and then its own statements. -/
theorem resolve_block {block : Nat} {statements : List String}
    (h : resolve p maxDepth (.block block) = .ok statements) :
    ∃ outer around lines mask, p.enclosing block = .ok outer ∧
      resolve p maxDepth outer = .ok around ∧ p.rawContext (.block block) = .ok lines ∧
        storedMask p (.block block) = .ok mask ∧
          statements = around ++ ownStatements lines mask := by
  obtain ⟨_, segments, habove, hsegments, rfl⟩ := resolve_eq_ok_iff.1 h
  obtain ⟨outer, k, houter, hk, rfl⟩ := Hierarchy.above?_block habove
  have hrootFirst : (⟨.block block, k.nodes⟩ : Hierarchy).rootFirst =
      k.rootFirst ++ [.block block] := List.reverse_cons
  rw [hrootFirst] at hsegments
  obtain ⟨before, own, hbefore, hown, rfl⟩ := Except.mapM_concat_eq_ok_iff.1 hsegments
  obtain ⟨lines, mask, hlines, hmask, rfl⟩ := segment_eq_ok_iff.1 hown
  refine ⟨outer, before.flatten, lines, mask, houter, ?_, hlines, hmask, by simp⟩
  exact resolve_eq_ok_iff.2 ⟨k, before, hk, hbefore, rfl⟩

/-- Every context ends with the own statements of its node. -/
theorem resolve_own_eq_ok_iff {node : Node} {statements : List String} :
    resolve p maxDepth node = .ok statements ↔
      ∃ h before lines mask, Hierarchy.above? p maxDepth node = .ok h ∧
        h.above.reverse.mapM (segment p) = .ok before ∧ p.rawContext node = .ok lines ∧
          storedMask p node = .ok mask ∧
            statements = before.flatten ++ ownStatements lines mask := by
  have hrootFirst (h : Hierarchy) : h.rootFirst = h.above.reverse ++ [h.start] :=
    List.reverse_cons
  rw [resolve_eq_ok_iff]
  constructor
  · rintro ⟨h, segments, habove, hsegments, rfl⟩
    rw [hrootFirst, (Hierarchy.start_not_mem_above habove).1] at hsegments
    obtain ⟨before, own, hbefore, hown, rfl⟩ := Except.mapM_concat_eq_ok_iff.1 hsegments
    obtain ⟨lines, mask, hlines, hmask, rfl⟩ := segment_eq_ok_iff.1 hown
    exact ⟨h, before, lines, mask, habove, hbefore, hlines, hmask, by simp⟩
  · rintro ⟨h, before, lines, mask, habove, hbefore, hlines, hmask, rfl⟩
    refine ⟨h, before ++ [ownStatements lines mask], habove, ?_, by simp⟩
    rw [hrootFirst, (Hierarchy.start_not_mem_above habove).1]
    exact Except.mapM_concat_eq_ok_iff.2
      ⟨before, _, hbefore, segment_eq_ok_iff.2 ⟨lines, mask, hlines, hmask, rfl⟩, rfl⟩

theorem resolve_ne_nil {node : Node} {statements : List String}
    (h : resolve p maxDepth node = .ok statements) : statements ≠ [] := by
  obtain ⟨_, before, lines, mask, _, _, _, _, rfl⟩ := resolve_own_eq_ok_iff.1 h
  simp [ownStatements]

/-- Contexts are lexical scopes. The context of a block is that of the node that encloses it and
then the block's lines, a blank line and the assignments of its mask. It is evaluated by evaluating
the enclosing context and then the block's own statements over what that has bound: names of the
enclosing context keep their places and take the values of the block where it binds them, and the
block's new names follow in their own order. -/
theorem contexts_scope_lexically {block : Nat} {statements : List String}
    (h : resolve p maxDepth (.block block) = .ok statements) :
    ∃ outer around lines mask, p.enclosing block = .ok outer ∧
      resolve p maxDepth outer = .ok around ∧ p.rawContext (.block block) = .ok lines ∧
        storedMask p (.block block) = .ok mask ∧
          statements = around ++ (lines ++ "" :: assignmentsOf mask) ∧
            ∀ bound : Bindings, Interpreter.fresh.evaluateLines statements = .ok bound ↔
              ∃ globals locals : Bindings,
                Interpreter.fresh.evaluateLines around = .ok globals ∧
                  (⟨globals⟩ : Interpreter).evaluateLines (lines ++ "" :: assignmentsOf mask) =
                      .ok locals ∧
                    OrderedMap.IsOverlay globals locals bound := by
  obtain ⟨outer, around, lines, mask, houter, haround, hlines, hmask, rfl⟩ := resolve_block h
  refine ⟨outer, around, lines, mask, houter, haround, hlines, hmask, rfl, ?_⟩
  intro bound
  simp only [OrderedMap.isOverlay_iff]
  exact Interpreter.evaluateLines_append_eq_ok_iff (resolve_ne_nil haround)
    (ownStatements_ne_nil lines mask)

def nestedBlocks : Store :=
  ((Store.empty.update (.diagram 1) fun data => { data with context := ["a = 'far'"] }).update
      (.block 1) fun data =>
        { data with context := ["a = 'near'", "b = a"], parentDiagram := some 1 }).update
      (.block 2) fun data => { data with context := ["a = 'own'"], parentBlock := some 1 }

theorem contexts_scope_lexically_nested :
    ∃ outer around lines mask, nestedBlocks.properties.enclosing 2 = .ok outer ∧
      resolve nestedBlocks.properties 4 outer = .ok around ∧
        nestedBlocks.properties.rawContext (.block 2) = .ok lines ∧
          storedMask nestedBlocks.properties (.block 2) = .ok mask ∧
            ["a = 'far'", "", "a = 'near'", "b = a", "", "a = 'own'", ""] =
                around ++ (lines ++ "" :: assignmentsOf mask) ∧
              ∀ bound : Bindings,
                Interpreter.fresh.evaluateLines
                    ["a = 'far'", "", "a = 'near'", "b = a", "", "a = 'own'", ""] = .ok bound ↔
                  ∃ globals locals : Bindings,
                    Interpreter.fresh.evaluateLines around = .ok globals ∧
                      (⟨globals⟩ : Interpreter).evaluateLines
                          (lines ++ "" :: assignmentsOf mask) = .ok locals ∧
                        OrderedMap.IsOverlay globals locals bound := by
  refine contexts_scope_lexically ?_
  unfold resolve Hierarchy.above? Hierarchy.aboveWith Hierarchy.climbWith Hierarchy.climbWith
  rfl

end DiagramScope.Resolution
