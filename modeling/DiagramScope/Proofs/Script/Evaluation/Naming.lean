import DiagramScope.Proofs.Script.Evaluation.Layers

/-!
Which names lines bind. Main statements: where lines can be evaluated, the names of their variables
are exactly those that a statement of one of the lines assigns, in the order of first assignment.
-/

set_option autoImplicit false
set_option relaxedAutoImplicit false

namespace DiagramScope.Script

def Statement.target? : Statement → Option String
  | assign name _ _ => some name
  | expression _ => none

private theorem Statement.target?_shift (bytes : Nat) (statement : Statement) :
    (statement.shift bytes).target? = statement.target? := by
  cases statement <;> rfl

def targets (program : List Statement) : List String := program.filterMap Statement.target?

private theorem targets_append_shift (bytes : Nat) (before after : List Statement) :
    targets (before ++ after.map (Statement.shift bytes)) = targets before ++ targets after := by
  have htarget : Statement.target? ∘ Statement.shift bytes = Statement.target? :=
    funext (Statement.target?_shift bytes)
  unfold targets
  rw [List.filterMap_append, List.filterMap_map, htarget]

/-- Whether a line can be read and has a statement that assigns the name. -/
def Assigns (line name : String) : Prop :=
  ∃ program, parse line = .ok program ∧ name ∈ targets program

instance (line name : String) : Decidable (Assigns line name) :=
  match h : parse line with
  | .ok program =>
    decidable_of_iff (name ∈ targets program)
      ⟨fun hname => ⟨program, h, hname⟩,
        fun ⟨_, hparse, hname⟩ => Except.ok.inj (hparse.symm.trans h) ▸ hname⟩
  | .error _ => .isFalse fun ⟨_, hparse, _⟩ => nomatch hparse.symm.trans h

variable {s s' : Scope} {name : String}

private theorem keys_execute {statement : Statement} (h : execute s statement = .ok s') :
    s'.locals.keys = s.locals.keys ++ statement.target?.toList.removeAll s.locals.keys := by
  cases statement with
  | assign target nameSpan value =>
    simp only [execute] at h
    split at h
    · cases h
    · cases hvalue : evaluate s value with
      | error fault => rw [hvalue] at h; cases h
      | ok v =>
        rw [hvalue] at h
        obtain rfl := Except.ok.inj h
        have hkeys : (s.assign target v).locals.keys = _ :=
          OrderedMap.keys_insert s.locals target v
        rw [hkeys]
        by_cases hbound : target ∈ s.locals.keys <;>
          simp [Statement.target?, List.removeAll, hbound]
  | expression value =>
    simp only [execute] at h
    cases hvalue : evaluate s value with
    | error fault => rw [hvalue] at h; cases h
    | ok v =>
      rw [hvalue] at h
      obtain rfl := Except.ok.inj h
      simp [Statement.target?, List.removeAll]

private theorem removeAll_concat (names more : List String) (name : String) :
    more.removeAll (names ++ [name]) = (more.removeAll names).filter fun n => !n == name := by
  simp only [List.removeAll, List.filter_filter]
  apply List.filter_congr
  intro n _
  by_cases hname : n = name <;> simp [hname]

/-- A run without faults binds new names behind those that are bound already, each of them once and
in the order in which the statements assign them. -/
theorem keys_executeAll {program : List Statement} (h : executeAll s program = (s', none)) :
    s'.locals.keys = s.locals.keys ++ ((targets program).removeAll s.locals.keys).eraseDups := by
  induction program generalizing s with
  | nil =>
    cases h
    simp [targets]
  | cons statement rest ih =>
    simp only [executeAll] at h
    cases hstep : execute s statement with
    | error fault =>
      rw [hstep] at h
      cases h
    | ok s₁ =>
      rw [hstep] at h
      have hkeys := keys_execute hstep
      cases htarget : statement.target? with
      | none =>
        have hsame : s₁.locals.keys = s.locals.keys := by
          simpa [htarget, List.removeAll] using hkeys
        have htargets : targets (statement :: rest) = targets rest := by simp [targets, htarget]
        rw [ih h, hsame, htargets]
      | some target =>
        have htargets : targets (statement :: rest) = target :: targets rest := by
          simp [targets, htarget]
        rw [ih h, htargets, List.cons_removeAll]
        by_cases hbound : target ∈ s.locals.keys
        · have hsame : s₁.locals.keys = s.locals.keys := by
            simpa [htarget, List.removeAll, hbound] using hkeys
          rw [hsame, if_neg (by simpa using hbound)]
        · have hnew : s₁.locals.keys = s.locals.keys ++ [target] := by
            simpa [htarget, List.removeAll, hbound] using hkeys
          rw [hnew, if_pos (by simpa using hbound), removeAll_concat, List.eraseDups_cons,
            List.append_assoc, List.singleton_append]

private theorem mem_keys_executeAll {program : List Statement}
    (h : executeAll s program = (s', none)) :
    name ∈ s'.locals.keys ↔ name ∈ s.locals.keys ∨ name ∈ targets program := by
  rw [keys_executeAll h, List.mem_append, List.mem_eraseDups]
  by_cases hbound : name ∈ s.locals.keys <;> simp [List.removeAll, hbound]

private theorem mem_targets_iff {lines : List String} {program : List Statement}
    (h : parse (joinLines lines) = .ok program) :
    name ∈ targets program ↔ ∃ line ∈ lines, Assigns line name := by
  have hsingle (line : String) {found : List Statement} (hfound : parse line = .ok found) :
      name ∈ targets found ↔ Assigns line name := by
    constructor
    · exact fun hname => ⟨found, hfound, hname⟩
    · rintro ⟨_, hfound', hname⟩
      exact Except.ok.inj (hfound'.symm.trans hfound) ▸ hname
  induction lines generalizing program with
  | nil =>
    have hnone : parse (joinLines []) = .ok [] := rfl
    obtain rfl := Except.ok.inj (hnone.symm.trans h)
    simp [targets]
  | cons first rest ih =>
    cases rest with
    | nil =>
      rw [joinLines, String.intercalate_singleton] at h
      simpa using hsingle first h
    | cons next more =>
      rw [joinLines, String.intercalate_cons_cons, ← joinLines, parse_lines_eq_ok_iff] at h
      obtain ⟨before, after, hfirst, hrest, rfl⟩ := h
      have hmore : name ∈ targets after ↔ ∃ line ∈ next :: more, Assigns line name := ih hrest
      rw [targets_append_shift, List.mem_append, hsingle first hfirst, hmore]
      simp

/-- The variables of lines have the names that statements of the lines assign. -/
theorem mem_keys_iff_assigns {i : Interpreter} {lines : List String} {bound : Bindings}
    (h : i.evaluateLines lines = .ok bound) :
    name ∈ bound.keys ↔ ∃ line ∈ lines, Assigns line name := by
  obtain ⟨program, hprogram, hrun⟩ := Interpreter.evaluateLines_eq_ok_iff.1 h
  have hkeys : name ∈ bound.keys ↔ _ := mem_keys_executeAll hrun
  have hfresh : name ∉ (Scope.fresh i.globals).locals.keys := List.not_mem_nil
  rw [← mem_targets_iff hprogram, hkeys]
  exact or_iff_right hfresh

theorem keys_evaluateLines {i : Interpreter} {lines : List String} {bound : Bindings}
    (h : i.evaluateLines lines = .ok bound) :
    ∃ program, parse (joinLines lines) = .ok program ∧
      bound.keys = (targets program).eraseDups := by
  obtain ⟨program, hprogram, hrun⟩ := Interpreter.evaluateLines_eq_ok_iff.1 h
  refine ⟨program, hprogram, ?_⟩
  have hkeys : bound.keys = _ := keys_executeAll hrun
  have hfresh : (Scope.fresh i.globals).locals.keys = [] := rfl
  rw [hkeys, hfresh, List.nil_append, List.removeAll_nil]

end DiagramScope.Script
