import DiagramScope.Proofs.Script.Value.Assignment

/-!
Displayed values as statements. Main statement: the line that assigns to a name the text of a
canonical value binds the name, and nothing else, to an equal value, if the numbers in the value are
finite and its lists do not nest too deeply.
-/

set_option autoImplicit false
set_option relaxedAutoImplicit false

namespace DiagramScope.Script

namespace Value

mutual

/-- How deep lists nest in a value. -/
def listDepth : Value → Nat
  | list items => listDepthAll items + 1
  | _ => 0

def listDepthAll : List Value → Nat
  | [] => 0
  | v :: rest => max (listDepth v) (listDepthAll rest)

end

private theorem numberLevels_le (x : Float) : numberLevels x ≤ 2 := by
  unfold numberLevels
  split <;> omega

private theorem foldr_numberLevels_le (cells : List Float) :
    (cells.map numberLevels).foldr max 0 ≤ 2 := by
  induction cells with
  | nil => exact Nat.zero_le 2
  | cons x rest ih => exact Nat.max_le.2 ⟨numberLevels_le x, ih⟩

mutual

/-- Inside its lists a value takes three levels at most: a vector, a sign and a number. -/
theorem levels_le (v : Value) : v.levels ≤ v.listDepth + 3 := by
  cases v with
  | list items =>
    have hitems := levelsAll_le items
    simp only [levels, listDepth]
    omega
  | number x =>
    have hnumber := numberLevels_le x
    simp only [levels, listDepth]
    omega
  | row cells =>
    have hcells := foldr_numberLevels_le cells
    simp only [levels, listDepth]
    omega
  | _ => simp [levels, listDepth]

private theorem levelsAll_le (items : List Value) : levelsAll items ≤ listDepthAll items + 3 := by
  cases items with
  | nil => exact Nat.zero_le 3
  | cons v rest =>
    have hfirst := levels_le v
    have hrest := levelsAll_le rest
    simp only [levelsAll, listDepthAll]
    omega

end

end Value

namespace Interpreter

private theorem exists_evaluateLines_display {name : String} (hname : IsName name)
    (hconstant : constant? name = none) {v : Value} (hv : v.Canonical)
    (hfinite : v.isFinite = true) (hlevels : v.levels ≤ maxNesting) :
    ∃ copy, fresh.evaluateLines [name ++ " = " ++ v.display] =
        .ok (OrderedMap.empty.insert name copy) ∧ v.equals copy = true := by
  have hcopies : Copies (.fresh .empty) v.written v.levels v :=
    copies_written rfl rfl hv hfinite fun _ _ => rfl
  exact exists_evaluateLines_assignment hname hconstant hcopies hfinite hlevels

/-- Displayed values are statements for themselves. -/
theorem displayed_values_are_statements {v : Value} (hv : v.Canonical) (hfinite : v.isFinite = true)
    (hdepth : v.listDepth ≤ 100) :
    ∃ copy, fresh.evaluateLines ["v = " ++ v.display] =
        .ok (OrderedMap.empty.insert "v" copy) ∧ v.equals copy = true := by
  have hlevels : v.levels ≤ maxNesting := by
    have hle := v.levels_le
    unfold maxNesting
    omega
  exact exists_evaluateLines_display ⟨'v', [], rfl, by decide, nofun⟩ rfl hv hfinite hlevels

def mixedList : Value :=
  .list [.row [-1, 0.5], .bool true, .texts ["say \"a\"", "// b"], .list [.empty, .number (-0)]]

theorem displayed_values_are_statements_mixed :
    mixedList.Canonical ∧ mixedList.isFinite = true ∧ mixedList.listDepth ≤ 100 ∧
      ∃ copy, fresh.evaluateLines ["v = " ++ mixedList.display] =
          .ok (OrderedMap.empty.insert "v" copy) ∧ mixedList.equals copy = true := by
  have hcanonical : mixedList.Canonical := by
    refine .list ?_
    simp only [List.forall_mem_cons]
    refine ⟨.row (Nat.le_refl 2), .bool true, .texts (Nat.le_refl 2) ?_, .list ?_, nofun⟩
    · simp [OneLine, Text.Quoted.isLineEnd]
    · exact List.forall_mem_cons.2 ⟨.empty, List.forall_mem_singleton.2 (.number _)⟩
  have hfinite : mixedList.isFinite = true := by decide +kernel
  have hdepth : mixedList.listDepth ≤ 100 := by decide
  exact ⟨hcanonical, hfinite, hdepth, displayed_values_are_statements hcanonical hfinite hdepth⟩

end Interpreter

end DiagramScope.Script
