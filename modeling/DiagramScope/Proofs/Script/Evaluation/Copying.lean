import DiagramScope.Proofs.Script.Evaluation.Canonical
import DiagramScope.Proofs.Script.Value.Assignment

/-!
Lines that assign written values, behind other lines. Main statement: such lines bind every name to
an equal value and leave all other variables as they are.
-/

set_option autoImplicit false
set_option relaxedAutoImplicit false

namespace DiagramScope.Script

def assignmentLine (variable' : String × Value) : String :=
  variable'.1 ++ " = " ++ variable'.2.display

/-- Whether a value can be assigned by its text where some names are bound: its numbers are
finite, it does not nest too deeply, and if it is a list, no variable hides the function that
makes lists. -/
structure Value.Writable (names : List String) (v : Value) : Prop where
  finite : v.isFinite = true
  levels : v.levels ≤ maxNesting
  list : ∀ items, v = .list items → "list" ∉ names

def SameVariables (es copies : List (String × Value)) : Prop :=
  List.Forall₂ (fun e copy => e.1 = copy.1 ∧ e.2.equals copy.2 = true) es copies

theorem SameVariables.names {es copies : List (String × Value)} (h : SameVariables es copies) :
    copies.map Prod.fst = es.map Prod.fst := by
  induction h with
  | nil => rfl
  | cons hfirst _ ih => rw [List.map_cons, List.map_cons, hfirst.1, ih]

section Copying

variable {bound : Bindings}

private theorem Assignable.lookup?_constant (h : Assignable bound) {name : String} {v : Value}
    (hname : constant? name = some v) : (Scope.fresh bound).lookup? name = some v := by
  have hnone : bound.get? name = none := by
    refine (OrderedMap.get?_eq_none_iff bound name).2 fun hmem => ?_
    rw [h.constant name hmem] at hname
    cases hname
  unfold Scope.lookup? Scope.fresh
  simp only [OrderedMap.get?_empty, hnone, hname]

private theorem lookup?_list (h : "list" ∉ bound.keys) :
    (Scope.fresh bound).lookup? "list" = none := by
  unfold Scope.lookup? Scope.fresh
  simp only [OrderedMap.get?_empty, (OrderedMap.get?_eq_none_iff bound "list").2 h]
  rfl

namespace Interpreter

variable {lines : List String}

private theorem exists_evaluateLines_concat (hlines : lines ≠ [])
    (h : fresh.evaluateLines lines = .ok bound) {name : String} {v : Value} (hname : IsName name)
    (hconstant : constant? name = none) (hv : v.Canonical) (hwritable : v.Writable bound.keys) :
    ∃ copy, fresh.evaluateLines (lines ++ [assignmentLine (name, v)]) =
        .ok (bound.insert name copy) ∧ v.equals copy = true := by
  have hassignable := assignable_of_evaluateLines h
  have hcopies : Copies (.fresh bound) v.written v.levels v :=
    copies_written (hassignable.lookup?_constant rfl) (hassignable.lookup?_constant rfl) hv
      hwritable.finite fun items hitems => lookup?_list (hwritable.list items hitems)
  obtain ⟨copy, hassign, hequal⟩ := exists_evaluateLines_assignment (i := ⟨bound⟩) hname hconstant
    hcopies hwritable.finite hwritable.levels
  refine ⟨copy, ?_, hequal⟩
  refine (evaluateLines_append_eq_ok_iff hlines (List.cons_ne_nil _ _)).2 ?_
  exact ⟨bound, _, h, hassign, rfl⟩

theorem exists_evaluateLines_append (hlines : lines ≠ [])
    (h : fresh.evaluateLines lines = .ok bound) {es : List (String × Value)}
    (hnames : ∀ e ∈ es, IsName e.1 ∧ constant? e.1 = none) (hvalues : ∀ e ∈ es, e.2.Canonical)
    (hwritable : ∀ e ∈ es, e.2.Writable (bound.keys ++ es.map Prod.fst)) :
    ∃ copies, fresh.evaluateLines (lines ++ es.map assignmentLine) =
        .ok (bound.insertAll copies) ∧ SameVariables es copies := by
  induction es generalizing lines bound with
  | nil =>
    rw [List.map_nil, List.append_nil]
    exact ⟨[], h, .nil⟩
  | cons e rest ih =>
    obtain ⟨hname, hnamesRest⟩ := List.forall_mem_cons.1 hnames
    obtain ⟨hvalue, hvaluesRest⟩ := List.forall_mem_cons.1 hvalues
    obtain ⟨hfirst, hwritableRest⟩ := List.forall_mem_cons.1 hwritable
    have hfirst' : e.2.Writable bound.keys :=
      ⟨hfirst.finite, hfirst.levels, fun items hitems hmem =>
        hfirst.list items hitems (List.mem_append_left _ hmem)⟩
    obtain ⟨copy, hconcat, hequal⟩ :=
      exists_evaluateLines_concat hlines h hname.1 hname.2 hvalue hfirst'
    have hrest : ∀ e' ∈ rest,
        e'.2.Writable ((bound.insert e.1 copy).keys ++ rest.map Prod.fst) := by
      intro e' he'
      obtain ⟨hfinite, hlevels, hlist⟩ := hwritableRest e' he'
      refine ⟨hfinite, hlevels, fun items hitems hmem => hlist items hitems ?_⟩
      rw [List.map_cons, List.mem_append, List.mem_cons]
      rcases List.mem_append.1 hmem with hmem | hmem
      · rcases (OrderedMap.mem_keys_insert _ _ _ _).1 hmem with hmem | hmem
        · exact Or.inr (Or.inl hmem)
        · exact Or.inl hmem
      · exact Or.inr (Or.inr hmem)
    have hlines : lines ++ [assignmentLine e] ≠ [] := by simp
    obtain ⟨copies, happend, hsame⟩ := ih hlines hconcat hnamesRest hvaluesRest hrest
    refine ⟨(e.1, copy) :: copies, ?_, .cons ⟨rfl, hequal⟩ hsame⟩
    rw [List.append_assoc, List.singleton_append] at happend
    exact happend

theorem evaluateLines_ne_ok_of_deep {i : Interpreter} {e : String × Value}
    (hline : assignmentLine e ∈ lines) (hname : IsName e.1) (hv : e.2.Canonical)
    (hfinite : e.2.isFinite = true) (hdeep : maxNesting < e.2.levels) (found : Bindings) :
    i.evaluateLines lines ≠ .ok found := by
  intro h
  obtain ⟨program, hparse, -⟩ := evaluateLines_eq_ok_iff.1 h
  obtain ⟨statements, hstatements⟩ := exists_parse_line hparse _ hline
  have hcopies : Copies (.fresh .empty) e.2.written e.2.levels e.2 :=
    copies_written rfl rfl hv hfinite fun _ _ => rfl
  exact parse_assignment_ne_ok hname hcopies hfinite hdeep statements hstatements

end Interpreter

end Copying

end DiagramScope.Script
