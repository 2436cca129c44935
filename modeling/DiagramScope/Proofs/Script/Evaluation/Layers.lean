import DiagramScope.Proofs.OrderedMap
import DiagramScope.Proofs.Script.Evaluation.Locality
import DiagramScope.Proofs.Script.Evaluation.Placement
import DiagramScope.Proofs.Script.Lines
import DiagramScope.Script.Interpreter

/-!
Local variables over global ones. Main statements: statements that run over globals do what they do
in one table in which the locals have been written over the globals, and lines behind other lines
are evaluated over what those have bound.
-/

set_option autoImplicit false
set_option relaxedAutoImplicit false

namespace DiagramScope.Script

namespace Scope

/-- The scope with its locals written over its globals, all as locals. -/
def flattened (s : Scope) : Scope := ⟨.empty, s.globals.extend s.locals⟩

private theorem lookup?_flattened (s : Scope) (name : String) :
    s.flattened.lookup? name = s.lookup? name := by
  simp only [lookup?, flattened, OrderedMap.get?_extend, OrderedMap.get?_empty]
  cases s.locals.get? name with
  | some value => rfl
  | none => cases s.globals.get? name <;> rfl

private theorem flattened_assign (s : Scope) (name : String) (value : Value) :
    (s.assign name value).flattened = s.flattened.assign name value := by
  simp only [flattened, assign, OrderedMap.extend_insert]

end Scope

private theorem corresponds_flattened : Corresponds (fun _ => True) fun s t => t = s.flattened where
  lookup := by
    rintro s _ rfl name -
    exact (s.lookup?_flattened name).symm
  assign := by
    rintro s _ rfl name - value
    exact (s.flattened_assign name value).symm

theorem execute_flattened (s : Scope) (statement : Statement) :
    execute s.flattened statement = (execute s statement).map Scope.flattened := by
  have hmade := statement.madeOf_of_forall (Token.named_of_forall fun _ => trivial)
  rcases corresponds_flattened.execute_cases (s := s) rfl hmade with
    ⟨fault, hs, ht⟩ | ⟨s', _, hs, ht, rfl⟩
  · rw [hs, ht]
    rfl
  · rw [hs, ht]
    rfl

/-- A run over globals is a run in which the globals count as locals. -/
theorem executeAll_flattened (s : Scope) (program : List Statement) :
    executeAll s.flattened program =
      ((executeAll s program).1.flattened, (executeAll s program).2) := by
  have hmade := fun (statement : Statement) (_ : statement ∈ program) =>
    statement.madeOf_of_forall (Token.named_of_forall fun _ => trivial)
  obtain ⟨hends, hfault⟩ := corresponds_flattened.executeAll (s := s) rfl hmade
  exact Prod.ext hends hfault.symm

theorem execute_globals {s s' : Scope} {statement : Statement}
    (h : execute s statement = .ok s') : s'.globals = s.globals := by
  cases statement with
  | assign name nameSpan value =>
    simp only [execute] at h
    split at h
    · cases h
    · cases hv : evaluate s value with
      | error fault => rw [hv] at h; cases h
      | ok v => rw [hv] at h; cases h; rfl
  | expression value =>
    simp only [execute] at h
    cases hv : evaluate s value with
    | error fault => rw [hv] at h; cases h
    | ok v => rw [hv] at h; cases h; rfl

theorem executeAll_globals (s : Scope) (program : List Statement) :
    (executeAll s program).1.globals = s.globals := by
  induction program generalizing s with
  | nil => rfl
  | cons statement rest ih =>
    simp only [executeAll]
    cases h : execute s statement with
    | error fault => rfl
    | ok s' => exact (ih s').trans (execute_globals h)

theorem executeAll_over_eq_iff {globals : Bindings} {t : Scope} {program : List Statement} :
    executeAll ⟨.empty, globals⟩ program = (t, none) ↔
      ∃ locals, executeAll (.fresh globals) program = (⟨globals, locals⟩, none) ∧
        t = ⟨.empty, globals.extend locals⟩ := by
  have hrun := executeAll_flattened (.fresh globals) program
  change executeAll ⟨.empty, globals⟩ program = _ at hrun
  have hkept := executeAll_globals (.fresh globals) program
  rw [hrun]
  generalize executeAll (.fresh globals) program = run at hkept ⊢
  obtain ⟨⟨globals', locals⟩, fault⟩ := run
  obtain rfl : globals' = globals := hkept
  constructor
  · intro h
    obtain ⟨rfl, rfl⟩ := Prod.mk.inj h
    exact ⟨locals, rfl, rfl⟩
  · rintro ⟨_, h, rfl⟩
    cases h
    rfl

private theorem executeAll_shift_eq_iff {s t : Scope} {bytes : Nat} {program : List Statement} :
    executeAll s (program.map (Statement.shift bytes)) = (t, none) ↔
      executeAll s program = (t, none) := by
  have hmoved := executeAll_mapSpan (fun span => span.shift bytes) s program
  change executeAll s (program.map (Statement.shift bytes)) = _ at hmoved
  rw [hmoved, Prod.mk.injEq, Option.map_eq_none_iff, Prod.ext_iff]

private theorem executeAll_append_eq_iff {s t : Scope} {first second : List Statement} :
    executeAll s (first ++ second) = (t, none) ↔
      ∃ m, executeAll s first = (m, none) ∧ executeAll m second = (t, none) := by
  induction first generalizing s with
  | nil => simp [executeAll]
  | cons statement rest ih =>
    simp only [List.cons_append, executeAll]
    cases execute s statement with
    | error fault => simp
    | ok s' => exact ih

private theorem joinLines_append {first second : List String} (h₁ : first ≠ []) (h₂ : second ≠ []) :
    joinLines (first ++ second) = joinLines first ++ "\n" ++ joinLines second :=
  String.intercalate_append_of_ne_nil h₁ h₂

theorem exists_parse_line {lines : List String} {program : List Statement}
    (h : parse (joinLines lines) = .ok program) :
    ∀ line ∈ lines, ∃ found, parse (joinLines [line]) = .ok found := by
  induction lines generalizing program with
  | nil => exact nofun
  | cons first rest ih =>
    intro line hline
    cases rest with
    | nil =>
      obtain rfl := List.mem_singleton.1 hline
      exact ⟨program, h⟩
    | cons next more =>
      have hjoin := joinLines_append (List.cons_ne_nil first []) (List.cons_ne_nil next more)
      change joinLines (first :: next :: more) = _ at hjoin
      rw [hjoin, parse_lines_eq_ok_iff] at h
      obtain ⟨p, q, hfirst, hrest, -⟩ := h
      rcases List.mem_cons.1 hline with rfl | hline
      · exact ⟨p, hfirst⟩
      · exact ih hrest line hline

namespace Interpreter

theorem evaluateLines_eq_ok_iff {i : Interpreter} {lines : List String} {bound : Bindings} :
    i.evaluateLines lines = .ok bound ↔
      ∃ program, parse (joinLines lines) = .ok program ∧
        executeAll (.fresh i.globals) program = (⟨i.globals, bound⟩, none) := by
  unfold evaluateLines
  cases parse (joinLines lines) with
  | error problems => simp
  | ok program =>
    have hkept := executeAll_globals (.fresh i.globals) program
    simp only [Except.ok.injEq, exists_eq_left']
    generalize executeAll (.fresh i.globals) program = run at hkept ⊢
    obtain ⟨⟨globals, locals⟩, fault⟩ := run
    obtain rfl : globals = i.globals := hkept
    cases fault with
    | none => simp
    | some fault => simp

/-- Lines behind other lines are evaluated over what those have bound, and what they bind is written
over it. -/
theorem evaluateLines_append_eq_ok_iff {outer own : List String} (houter : outer ≠ [])
    (hown : own ≠ []) {bound : Bindings} :
    fresh.evaluateLines (outer ++ own) = .ok bound ↔
      ∃ globals locals, fresh.evaluateLines outer = .ok globals ∧
        (⟨globals⟩ : Interpreter).evaluateLines own = .ok locals ∧
          bound = globals.extend locals := by
  simp only [evaluateLines_eq_ok_iff, joinLines_append houter hown, parse_lines_eq_ok_iff]
  constructor
  · rintro ⟨_, ⟨first, second, hfirst, hsecond, rfl⟩, hrun⟩
    obtain ⟨⟨between, globals⟩, hbefore, hafter⟩ := executeAll_append_eq_iff.1 hrun
    have hempty : between = .empty := by
      have hkept := executeAll_globals (.fresh fresh.globals) first
      rw [hbefore] at hkept
      exact hkept
    subst hempty
    rw [executeAll_shift_eq_iff] at hafter
    obtain ⟨locals, hlocals, hbound⟩ := executeAll_over_eq_iff.1 hafter
    exact ⟨globals, locals, ⟨first, hfirst, hbefore⟩, ⟨second, hsecond, hlocals⟩,
      congrArg Scope.locals hbound⟩
  · rintro ⟨globals, locals, ⟨first, hfirst, hbefore⟩, ⟨second, hsecond, hlocals⟩, rfl⟩
    refine ⟨_, ⟨first, second, hfirst, hsecond, rfl⟩, executeAll_append_eq_iff.2 ?_⟩
    refine ⟨_, hbefore, executeAll_shift_eq_iff.2 ?_⟩
    exact executeAll_over_eq_iff.2 ⟨locals, hlocals, rfl⟩

end Interpreter

end DiagramScope.Script
