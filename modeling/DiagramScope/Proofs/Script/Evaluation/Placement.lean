import DiagramScope.Proofs.Script.Shift
import DiagramScope.Script.Evaluation

/-!
What statements compute does not depend on where they stand in a text: with other spans they give
the same values, and the same faults at the other spans.
-/

set_option autoImplicit false
set_option relaxedAutoImplicit false

namespace DiagramScope.Script

variable (f : Span → Span)

def relocated {α : Type} (r : Except EvaluationFault α) : Except EvaluationFault α :=
  r.mapError (EvaluationFault.mapSpan f)

section Relocated

variable {α β : Type}

@[simp]
theorem relocated_ok (a : α) : relocated f (.ok a) = .ok a := rfl

@[simp]
theorem relocated_error (fault : EvaluationFault) :
    relocated f (.error fault : Except EvaluationFault α) = .error (fault.mapSpan f) := rfl

@[simp]
theorem relocated_map (g : α → β) (r : Except EvaluationFault α) :
    relocated f (r.map g) = (relocated f r).map g := by
  cases r <;> rfl

private theorem relocated_bind (r : Except EvaluationFault α) (g : α → Except EvaluationFault β) :
    relocated f (r >>= g) = relocated f r >>= fun a => relocated f (g a) := by
  cases r <;> rfl

end Relocated

private theorem combine_relocated {α β : Type} (g : α → α → β) (left right : List α) (span : Span) :
    combine g left right (f span) = relocated f (combine g left right span) := by
  unfold combine
  cases broadcast g left right <;> rfl

private theorem applyNumeric_relocated (operator : Operator) (left right : List Float)
    (span : Span) : applyNumeric operator left right (f span) =
      relocated f (applyNumeric operator left right span) := by
  unfold applyNumeric
  split
  · rfl
  · rw [relocated_map, combine_relocated]

private theorem applyOperator_relocated (operator : Operator) (left right : Value) (span : Span) :
    applyOperator operator left right (f span) =
      relocated f (applyOperator operator left right span) := by
  unfold applyOperator
  split
  · rw [relocated_map, combine_relocated]
  · split
    · exact applyNumeric_relocated f _ _ _ span
    · rfl

private theorem applySign_relocated (sign : Sign) (operand : Value) (span : Span) :
    applySign sign operand (f span) = relocated f (applySign sign operand span) := by
  unfold applySign
  cases operand.numbers? <;> rfl

private theorem elementAt_relocated (name : String) (target index : Value) (span : Span) :
    elementAt name target index (f span) = relocated f (elementAt name target index span) := by
  unfold elementAt
  cases position? index with
  | none => rfl
  | some found =>
    obtain ⟨number, position⟩ := found
    cases h : element? target position <;> simp [h, EvaluationFault.mapSpan]

private theorem append_relocated (cells : Cells) (item : Value) (span : Span) :
    cells.append item (f span) = relocated f (cells.append item span) := by
  have hchecked : ∀ cells : Cells, Cells.append.checked (f span) cells =
      relocated f (Cells.append.checked span cells) := by
    intro cells
    unfold Cells.append.checked
    split <;> rfl
  unfold Cells.append
  split
  · exact hchecked _
  · exact hchecked _
  · rfl

private theorem numeric_relocated (name : String) (argument : Value) (span : Span) :
    Builtin.numeric name argument (f span) = relocated f (Builtin.numeric name argument span) := by
  unfold Builtin.numeric
  cases argument.numbers? <;> rfl

private theorem applyExtremum_relocated (choose : Float → Float → Float) (name : String)
    (arguments : List Value) (span : Span) :
    Builtin.applyExtremum choose name arguments (f span) =
      relocated f (Builtin.applyExtremum choose name arguments span) := by
  unfold Builtin.applyExtremum
  split
  · rw [relocated_bind, numeric_relocated]
    congr 1
    funext cells
    cases cells <;> rfl
  · rw [relocated_bind, numeric_relocated]
    congr 1
    funext left
    rw [relocated_bind, numeric_relocated]
    congr 1
    funext right
    rw [relocated_bind, combine_relocated]
    rfl
  · rfl

private theorem apply_relocated (builtin : Builtin) (name : String) (arguments : List Value)
    (span : Span) :
    builtin.apply name arguments (f span) = relocated f (builtin.apply name arguments span) := by
  unfold Builtin.apply
  split
  · rfl
  · exact applyExtremum_relocated f _ name _ span
  · rw [relocated_map, numeric_relocated]
  · rfl
  · next argument =>
    cases Builtin.textOf? argument <;> rfl
  · rfl

mutual

/-- An expression with other spans has the same value. -/
theorem evaluate_mapSpan (scope : Scope) (e : Expr) :
    evaluate scope (e.mapSpan f) = relocated f (evaluate scope e) := by
  cases e with
  | number value span => rfl
  | text content span => rfl
  | reference name span =>
    simp only [Expr.mapSpan, evaluate]
    cases scope.lookup? name <;> rfl
  | vector items span =>
    simp only [Expr.mapSpan, evaluate, relocated_map, collect_mapSpan scope .none items]
  | call name nameSpan arguments span =>
    simp only [Expr.mapSpan, evaluate]
    cases scope.lookup? name with
    | none =>
      cases Builtin.ofName? name with
      | none => rfl
      | some builtin =>
        simp only [relocated_bind, evaluateAll_mapSpan scope arguments]
        congr 1
        funext values
        exact apply_relocated f builtin name values span
    | some target =>
      match arguments with
      | [] => rfl
      | [index] =>
        simp only [Expr.mapSpanAll, relocated_bind, evaluate_mapSpan scope index]
        congr 1
        funext value
        rw [Expr.span_mapSpan]
        exact elementAt_relocated f name target value index.span
      | first :: second :: rest =>
        simp [Expr.mapSpanAll, EvaluationFault.mapSpan]
  | signed sign operand span =>
    simp only [Expr.mapSpan, evaluate, relocated_bind, evaluate_mapSpan scope operand]
    congr 1
    funext value
    rw [Expr.span_mapSpan]
    exact applySign_relocated f sign value operand.span
  | binary operator left right span =>
    simp only [Expr.mapSpan, evaluate, relocated_bind, evaluate_mapSpan scope left,
      evaluate_mapSpan scope right]
    congr 1
    funext l
    congr 1
    funext r
    exact applyOperator_relocated f operator l r span

private theorem evaluateAll_mapSpan (scope : Scope) (es : List Expr) :
    evaluateAll scope (Expr.mapSpanAll f es) = relocated f (evaluateAll scope es) := by
  cases es with
  | nil => rfl
  | cons e rest =>
    simp only [Expr.mapSpanAll, evaluateAll, relocated_bind, evaluate_mapSpan scope e,
      evaluateAll_mapSpan scope rest]
    rfl

private theorem collect_mapSpan (scope : Scope) (cells : Cells) (es : List Expr) :
    collect scope cells (Expr.mapSpanAll f es) = relocated f (collect scope cells es) := by
  cases es with
  | nil => rfl
  | cons e rest =>
    simp only [Expr.mapSpanAll, collect, relocated_bind, evaluate_mapSpan scope e,
      Expr.span_mapSpan]
    congr 1
    funext value
    rw [append_relocated]
    congr 1
    funext cells
    exact collect_mapSpan scope cells rest

end

theorem execute_mapSpan (scope : Scope) (s : Statement) :
    execute scope (s.mapSpan f) = relocated f (execute scope s) := by
  cases s with
  | assign name nameSpan value =>
    simp only [Statement.mapSpan, execute, evaluate_mapSpan]
    split
    · rfl
    · rw [relocated_map]
  | expression value =>
    simp only [Statement.mapSpan, execute, evaluate_mapSpan]
    rw [relocated_map]

theorem executeAll_mapSpan (scope : Scope) (program : List Statement) :
    executeAll scope (program.map (Statement.mapSpan f)) =
      ((executeAll scope program).1,
        (executeAll scope program).2.map (EvaluationFault.mapSpan f)) := by
  induction program generalizing scope with
  | nil => rfl
  | cons s rest ih =>
    simp only [List.map_cons, executeAll, execute_mapSpan]
    cases execute scope s with
    | error fault => rfl
    | ok scope' => exact ih scope'

end DiagramScope.Script
