import DiagramScope.Proofs.OrderedMap
import DiagramScope.Proofs.Script.Parser.Origin
import DiagramScope.Script.Interpreter

/-!
Which names matter to an evaluation. Main statement: interpreters that agree on the names that occur
in a source evaluate it alike, and running it does the same to both and nothing to other names.
-/

set_option autoImplicit false
set_option relaxedAutoImplicit false

namespace DiagramScope.Script

namespace Token

def Named (P : String → Prop) : Token → Prop
  | name spelling => P spelling
  | _ => True

theorem named_of_forall {P : String → Prop} (h : ∀ name, P name) (t : Token) : t.Named P := by
  cases t with
  | name spelling => exact h spelling
  | _ => trivial

end Token

mutual

private theorem Expr.madeOf_of_forall {P : Token → Prop} (h : ∀ t, P t) (e : Expr) :
    e.MadeOf P := by
  cases e with
  | number value span => exact .number (h _) span
  | text content span => exact .text (h _) span
  | reference name span => exact .reference (h _) span
  | vector items span => exact .vector (Expr.forall_madeOf_of_forall h items) span
  | call name nameSpan arguments span =>
    exact .call (h _) (Expr.forall_madeOf_of_forall h arguments) nameSpan span
  | signed sign operand span => exact .signed sign (Expr.madeOf_of_forall h operand) span
  | binary operator left right span =>
    exact .binary operator (Expr.madeOf_of_forall h left) (Expr.madeOf_of_forall h right) span

private theorem Expr.forall_madeOf_of_forall {P : Token → Prop} (h : ∀ t, P t) (es : List Expr) :
    ∀ e ∈ es, e.MadeOf P := by
  cases es with
  | nil => exact nofun
  | cons e rest =>
    exact List.forall_mem_cons.2
      ⟨Expr.madeOf_of_forall h e, Expr.forall_madeOf_of_forall h rest⟩

end

theorem Statement.madeOf_of_forall {P : Token → Prop} (h : ∀ t, P t) (statement : Statement) :
    statement.MadeOf P := by
  cases statement with
  | assign name nameSpan value => exact ⟨h _, value.madeOf_of_forall h⟩
  | expression value => exact value.madeOf_of_forall h

section Names

variable {P : String → Prop} {s t : Scope}

mutual

/-- Only the values of its names matter to an expression. -/
theorem evaluate_congr (h : ∀ name, P name → s.lookup? name = t.lookup? name) {e : Expr}
    (he : e.MadeOf (Token.Named P)) : evaluate s e = evaluate t e := by
  cases e with
  | number value span => rfl
  | text content span => rfl
  | reference name span =>
    cases he with
    | reference hname => simp only [evaluate, h name hname]
  | vector items span =>
    cases he with
    | vector hitems => simp only [evaluate, collect_congr h .none hitems]
  | call name nameSpan arguments span =>
    cases he with
    | call hname harguments =>
      simp only [evaluate, h name hname, evaluateAll_congr h harguments]
      match arguments with
      | [] => rfl
      | [index] => simp only [evaluate_congr h (List.forall_mem_singleton.1 harguments)]
      | first :: second :: rest => rfl
  | signed sign operand span =>
    cases he with
    | signed _ hoperand => simp only [evaluate, evaluate_congr h hoperand]
  | binary operator left right span =>
    cases he with
    | binary _ hleft hright =>
      simp only [evaluate, evaluate_congr h hleft, evaluate_congr h hright]

private theorem evaluateAll_congr (h : ∀ name, P name → s.lookup? name = t.lookup? name)
    {es : List Expr} (hes : ∀ e ∈ es, e.MadeOf (Token.Named P)) :
    evaluateAll s es = evaluateAll t es := by
  cases es with
  | nil => rfl
  | cons e rest =>
    obtain ⟨he, hrest⟩ := List.forall_mem_cons.1 hes
    simp only [evaluateAll, evaluate_congr h he, evaluateAll_congr h hrest]

private theorem collect_congr (h : ∀ name, P name → s.lookup? name = t.lookup? name) (cells : Cells)
    {es : List Expr} (hes : ∀ e ∈ es, e.MadeOf (Token.Named P)) :
    collect s cells es = collect t cells es := by
  cases es with
  | nil => rfl
  | cons e rest =>
    obtain ⟨he, hrest⟩ := List.forall_mem_cons.1 hes
    simp only [collect, evaluate_congr h he]
    congr 1
    funext value
    congr 1
    funext cells
    exact collect_congr h cells hrest

end

end Names

/-- Whether related scopes cannot be told apart by their names with a property, and stay related
when such a name is assigned in both. -/
structure Corresponds (P : String → Prop) (R : Scope → Scope → Prop) : Prop where
  lookup : ∀ s t, R s t → ∀ name, P name → s.lookup? name = t.lookup? name
  assign : ∀ s t, R s t → ∀ name, P name → ∀ value, R (s.assign name value) (t.assign name value)

section Runs

variable {P : String → Prop} {R : Scope → Scope → Prop} {s t : Scope}

theorem Corresponds.execute_cases (hR : Corresponds P R) (h : R s t) {statement : Statement}
    (hmade : statement.MadeOf (Token.Named P)) :
    (∃ fault, execute s statement = .error fault ∧ execute t statement = .error fault) ∨
      ∃ s' t', execute s statement = .ok s' ∧ execute t statement = .ok t' ∧ R s' t' := by
  cases statement with
  | assign name nameSpan value =>
    obtain ⟨hname, hvalue⟩ := hmade
    simp only [execute, evaluate_congr (hR.lookup s t h) hvalue]
    split
    · exact Or.inl ⟨_, rfl, rfl⟩
    · cases evaluate t value with
      | error fault => exact Or.inl ⟨fault, rfl, rfl⟩
      | ok v => exact Or.inr ⟨_, _, rfl, rfl, hR.assign s t h name hname v⟩
  | expression value =>
    simp only [execute, evaluate_congr (hR.lookup s t h) hmade]
    cases evaluate t value with
    | error fault => exact Or.inl ⟨fault, rfl, rfl⟩
    | ok v => exact Or.inr ⟨s, t, rfl, rfl, h⟩

/-- Statements do the same in related scopes, up to the one that fails, if there is one. -/
theorem Corresponds.executeAll (hR : Corresponds P R) (h : R s t) {program : List Statement}
    (hmade : ∀ statement ∈ program, statement.MadeOf (Token.Named P)) :
    R (executeAll s program).1 (executeAll t program).1 ∧
      (executeAll s program).2 = (executeAll t program).2 := by
  induction program generalizing s t with
  | nil => exact ⟨h, rfl⟩
  | cons statement rest ih =>
    obtain ⟨hfirst, hrest⟩ := List.forall_mem_cons.1 hmade
    simp only [Script.executeAll]
    rcases hR.execute_cases h hfirst with ⟨fault, hs, ht⟩ | ⟨s', t', hs, ht, hnext⟩
    · rw [hs, ht]
      exact ⟨h, rfl⟩
    · rw [hs, ht]
      exact ih hnext hrest

end Runs

/-- The names that occur in a source, as variables or as names of calls. -/
def mentioned (source : String) : List String :=
  match tokenize source with
  | .ok ls => ls.filterMap fun l =>
    match l.token with
    | .name spelling => some spelling
    | _ => none
  | .error _ => []

/-- The statements of a source are made of the names that occur in it. -/
theorem madeOf_mentioned {source : String} {program : List Statement}
    (h : parse source = .ok program) :
    ∀ statement ∈ program, statement.MadeOf (Token.Named (· ∈ mentioned source)) := by
  intro statement hs
  refine madeOf_parse (fun ls hls l hl => ?_) h hs
  cases htoken : l.token with
  | name spelling =>
    unfold Token.Named mentioned
    rw [hls]
    exact List.mem_filterMap.2 ⟨l, hl, by rw [htoken]⟩
  | _ => trivial

private theorem exists_executeAll_of_agree {P : String → Prop} {globals globals' : Bindings}
    (h : ∀ name, P name → globals.get? name = globals'.get? name) {program : List Statement}
    (hmade : ∀ statement ∈ program, statement.MadeOf (Token.Named P)) :
    ∃ bound fault, executeAll (.fresh globals) program = (⟨globals, bound⟩, fault) ∧
      executeAll (.fresh globals') program = (⟨globals', bound⟩, fault) ∧
        ∀ name ∈ bound.keys, P name := by
  -- Scopes over the two tables are related if they have the same locals.
  let R (s t : Scope) : Prop :=
    s.globals = globals ∧ t.globals = globals' ∧ s.locals = t.locals ∧
      ∀ name ∈ s.locals.keys, P name
  have hR : Corresponds P R := by
    constructor
    · rintro ⟨_, locals⟩ ⟨_, _⟩ ⟨rfl, rfl, rfl, -⟩ name hname
      unfold Scope.lookup?
      rw [h name hname]
    · rintro ⟨_, locals⟩ ⟨_, _⟩ ⟨rfl, rfl, rfl, hkeys⟩ name hname value
      refine ⟨rfl, rfl, rfl, fun key hkey => ?_⟩
      rcases (OrderedMap.mem_keys_insert _ _ _ _).1 hkey with rfl | hkey
      · exact hname
      · exact hkeys key hkey
  have hstart : R (.fresh globals) (.fresh globals') := ⟨rfl, rfl, rfl, nofun⟩
  obtain ⟨hends, hfault⟩ := hR.executeAll hstart hmade
  generalize executeAll (.fresh globals) program = first at hends hfault ⊢
  generalize executeAll (.fresh globals') program = second at hends hfault ⊢
  obtain ⟨⟨_, bound⟩, fault⟩ := first
  obtain ⟨⟨_, _⟩, _⟩ := second
  obtain ⟨rfl, rfl, rfl, hkeys⟩ := hends
  obtain rfl := hfault
  exact ⟨bound, fault, rfl, rfl, hkeys⟩

namespace Interpreter

/-- Whether a source does the same to two interpreters. Lines that make up the source bind the same
variables in the same order on both, or are reported alike. A run ends alike, gives the names that
occur in the source the same values, leaves all other globals as they were, and puts the same new
names behind the globals of each. -/
structure SameEffect (i j : Interpreter) (source : String) : Prop where
  lines : ∀ lines, joinLines lines = source → i.evaluateLines lines = j.evaluateLines lines
  result : (i.run source).2 = (j.run source).2
  values : ∀ name ∈ mentioned source, (i.run source).1.get? name = (j.run source).1.get? name
  others : ∀ name, name ∉ mentioned source →
    (i.run source).1.get? name = i.get? name ∧ (j.run source).1.get? name = j.get? name
  order : ∃ added, (∀ name ∈ added, name ∈ mentioned source) ∧
    (i.run source).1.globals.keys = i.globals.keys ++ added ∧
      (j.run source).1.globals.keys = j.globals.keys ++ added

variable {i j : Interpreter} {source : String}

private theorem exists_run_of_agree (h : ∀ name ∈ mentioned source, i.get? name = j.get? name) :
    ∃ bound result, i.run source = (⟨i.globals.extend bound⟩, result) ∧
      j.run source = (⟨j.globals.extend bound⟩, result) ∧
        ∀ name ∈ bound.keys, name ∈ mentioned source := by
  unfold run
  cases hparse : parse source with
  | error problems => exact ⟨.empty, .error problems, rfl, rfl, nofun⟩
  | ok program =>
    obtain ⟨bound, fault, hi, hj, hkeys⟩ :=
      exists_executeAll_of_agree (P := (· ∈ mentioned source)) h (madeOf_mentioned hparse)
    simp only [hi, hj]
    exact ⟨bound, _, rfl, rfl, hkeys⟩

private theorem evaluateLines_of_agree {lines : List String}
    (h : ∀ name ∈ mentioned (joinLines lines), i.get? name = j.get? name) :
    i.evaluateLines lines = j.evaluateLines lines := by
  unfold evaluateLines
  cases hparse : parse (joinLines lines) with
  | error problems => rfl
  | ok program =>
    obtain ⟨bound, fault, hi, hj, -⟩ := exists_executeAll_of_agree
      (P := (· ∈ mentioned (joinLines lines))) h (madeOf_mentioned hparse)
    simp only [hi, hj]
    cases fault <;> rfl

/-- Evaluation depends only on the names that a program mentions. Where two interpreters agree on
the names that occur in a source, each bound in both to one value or in neither, the source does the
same to both. -/
theorem evaluation_depends_on_mentioned_names
    (h : ∀ name ∈ mentioned source, i.get? name = j.get? name) : i.SameEffect j source := by
  obtain ⟨bound, result, hi, hj, hkeys⟩ := exists_run_of_agree h
  have hvalue (k : Interpreter) (name : String) :
      (⟨k.globals.extend bound⟩ : Interpreter).get? name = (bound.get? name).or (k.get? name) :=
    OrderedMap.get?_extend k.globals bound name
  refine ⟨?_, ?_, ?_, ?_, ?_⟩
  · rintro lines rfl
    exact evaluateLines_of_agree h
  · rw [hi, hj]
  · intro name hname
    rw [hi, hj, hvalue i, hvalue j, h name hname]
  · intro name hname
    have hunbound : bound.get? name = none :=
      (OrderedMap.get?_eq_none_iff bound name).2 fun hmem => hname (hkeys name hmem)
    rw [hi, hj, hvalue i, hvalue j, hunbound]
    exact ⟨rfl, rfl⟩
  · refine ⟨bound.keys.filter fun name => !i.globals.contains name, ?_, ?_, ?_⟩
    · exact fun name hname => hkeys name (List.mem_filter.1 hname).1
    · rw [hi]
      exact OrderedMap.keys_extend i.globals bound
    · -- A name of the source is new to both interpreters or to neither.
      have hnew : ∀ name ∈ bound.keys,
          (!i.globals.contains name) = !j.globals.contains name := by
        intro name hname
        have hagree : i.globals.get? name = j.globals.get? name := h name (hkeys name hname)
        rw [OrderedMap.contains, OrderedMap.contains, hagree]
      rw [hj, List.filter_congr hnew]
      exact OrderedMap.keys_extend j.globals bound

def indexingSource : String := "b = string(2) + 'z'; c = b(d)"

def rowBehindOther : Interpreter := (fresh.set "other" (.text "o")).set "string" (.texts ["p", "q"])

def rowBeforeOther : Interpreter := (fresh.set "string" (.texts ["p", "q"])).set "size" .empty

theorem evaluation_depends_on_mentioned_names_failing :
    (∀ name ∈ mentioned indexingSource, rowBehindOther.get? name = rowBeforeOther.get? name) ∧
      rowBehindOther.SameEffect rowBeforeOther indexingSource ∧
        ((rowBehindOther.run indexingSource).1.get? "b").bind Value.texts? = some ["qz"] ∧
          (rowBehindOther.run indexingSource).2.isOk = false := by
  have hnames : mentioned indexingSource = ["b", "string", "c", "b", "d"] := by decide +kernel
  have hagree : ∀ name ∈ mentioned indexingSource,
      rowBehindOther.get? name = rowBeforeOther.get? name := by
    rw [hnames]
    simp only [List.forall_mem_cons]
    exact ⟨rfl, rfl, rfl, rfl, rfl, nofun⟩
  exact ⟨hagree, evaluation_depends_on_mentioned_names hagree, by decide +kernel,
    by decide +kernel⟩

end Interpreter

end DiagramScope.Script
