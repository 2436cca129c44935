import DiagramScope.Proofs.Script.Evaluation.Canonical
import DiagramScope.Proofs.Script.Syntax.Standing

/-!
What evaluation preserves. Main statement: over canonical globals every expression of every source
has a canonical value, and so have the variables that are bound and the globals that a run leaves,
also where it fails; canonical values are displayed on one line.
-/

set_option autoImplicit false
set_option relaxedAutoImplicit false

namespace DiagramScope.Script

open Text.Quoted (isLineEnd)

section Display

namespace Value

private theorem isLineEnd_commaSeparated {items : List (List Char)}
    (h : ∀ cs ∈ items, ∀ c ∈ cs, isLineEnd c = false) :
    ∀ c ∈ commaSeparated items, isLineEnd c = false := by
  cases items with
  | nil => exact nofun
  | cons first more =>
    obtain ⟨hfirst, hmore⟩ := List.forall_mem_cons.1 h
    rw [commaSeparated_cons, List.forall_mem_append]
    refine ⟨hfirst, fun c hc => ?_⟩
    obtain ⟨cs, hcs, hmem⟩ := List.mem_flatMap.1 hc
    rcases List.mem_cons.1 hmem with rfl | hmem
    · rfl
    · exact hmore cs hcs c hmem

private theorem isLineEnd_bracketed {items : List (List Char)}
    (h : ∀ cs ∈ items, ∀ c ∈ cs, isLineEnd c = false) :
    ∀ c ∈ bracketed items, isLineEnd c = false := by
  unfold bracketed
  rw [List.forall_mem_append, List.forall_mem_cons]
  exact ⟨⟨rfl, isLineEnd_commaSeparated h⟩, List.forall_mem_singleton.2 rfl⟩

private theorem isLineEnd_double {quote : Char} (hquote : isLineEnd quote = false)
    {text : List Char} (h : ∀ c ∈ text, isLineEnd c = false) :
    ∀ c ∈ Text.Quoted.double quote text, isLineEnd c = false := by
  induction text with
  | nil => exact nofun
  | cons first more ih =>
    obtain ⟨hfirst, hmore⟩ := List.forall_mem_cons.1 h
    unfold Text.Quoted.double
    split
    · exact List.forall_mem_cons.2 ⟨hquote, List.forall_mem_cons.2 ⟨hquote, ih hmore⟩⟩
    · exact List.forall_mem_cons.2 ⟨hfirst, ih hmore⟩

private theorem isLineEnd_quoted {s : String} (h : OneLine s) :
    ∀ c ∈ quoted s, isLineEnd c = false := by
  unfold quoted Text.Quoted.encode
  rw [List.forall_mem_append, List.forall_mem_cons]
  exact ⟨⟨rfl, isLineEnd_double rfl h⟩, List.forall_mem_singleton.2 rfl⟩

mutual

private theorem isLineEnd_written {v : Value} (h : v.Canonical) :
    ∀ c ∈ v.written, isLineEnd c = false := by
  cases v with
  | empty => exact List.forall_mem_cons.2 ⟨rfl, List.forall_mem_singleton.2 rfl⟩
  | number x => exact isLineEnd_numberText x
  | row cells =>
    refine isLineEnd_bracketed fun cs hcs => ?_
    obtain ⟨x, -, rfl⟩ := List.mem_map.1 hcs
    exact isLineEnd_numberText x
  | bool b => cases b <;> exact List.forall_mem_cons.2 ⟨rfl, List.forall_mem_singleton.2 rfl⟩
  | text s =>
    cases h with
    | text hline => exact isLineEnd_quoted hline
  | texts cells =>
    cases h with
    | texts _ hline =>
      refine isLineEnd_bracketed fun cs hcs => ?_
      obtain ⟨s, hs, rfl⟩ := List.mem_map.1 hcs
      exact isLineEnd_quoted (hline s hs)
  | list items =>
    cases h with
    | list hitems =>
      have hinner := isLineEnd_commaSeparated (isLineEnd_writtenAll hitems)
      simp only [written]
      rw [List.forall_mem_append, List.forall_mem_append]
      exact ⟨⟨by simp [isLineEnd], hinner⟩, List.forall_mem_singleton.2 rfl⟩

private theorem isLineEnd_writtenAll {items : List Value} (h : ∀ v ∈ items, v.Canonical) :
    ∀ cs ∈ writtenAll items, ∀ c ∈ cs, isLineEnd c = false := by
  cases items with
  | nil => exact nofun
  | cons v rest =>
    obtain ⟨hv, hrest⟩ := List.forall_mem_cons.1 h
    exact List.forall_mem_cons.2 ⟨isLineEnd_written hv, isLineEnd_writtenAll hrest⟩

end

theorem Canonical.oneLine_display {v : Value} (h : v.Canonical) : OneLine v.display := by
  intro c hc
  rw [display, String.toList_ofList] at hc
  exact isLineEnd_written h c hc

end Value

end Display

section Runs

private theorem Expr.MadeOf.node {P : Token → Prop} {root e : Expr} (h : root.MadeOf P)
    (he : root.HasNode e) : e.MadeOf P := by
  induction he with
  | root => exact h
  | child _ hc ih =>
    cases ih with
    | vector hitems => exact hitems _ hc
    | call _ harguments => exact harguments _ hc
    | signed _ hoperand => exact List.mem_singleton.1 hc ▸ hoperand
    | binary _ hleft hright =>
      rcases List.mem_pair.1 hc with rfl | rfl
      · exact hleft
      · exact hright
    | _ => cases hc

private theorem Statement.MadeOf.value {P : Token → Prop} {s : Statement} (h : s.MadeOf P) :
    s.value.MadeOf P := by
  cases s with
  | assign name nameSpan value => exact h.2
  | expression value => exact h

variable {s s' : Scope} {program : List Statement}

private theorem Scope.Canonical.assign (hs : s.Canonical) {v : Value} (hv : v.Canonical)
    (name : String) : (s.assign name v).Canonical := by
  intro key w hw
  unfold Scope.lookup? Scope.assign at hw
  by_cases hkey : key = name
  · rw [hkey, OrderedMap.get?_insert_self] at hw
    exact Option.some.inj hw ▸ hv
  · rw [OrderedMap.get?_insert_of_ne _ hkey] at hw
    exact hs key w hw

private theorem Scope.Canonical.extended (hs : s.Canonical) (name : String) {v : Value}
    (h : (s.globals.extend s.locals).get? name = some v) : v.Canonical := by
  rw [OrderedMap.get?_extend, Option.or_eq_some_iff] at h
  refine hs name v ?_
  unfold Scope.lookup?
  rcases h with hlocal | ⟨hnone, hglobal⟩
  · rw [hlocal]
  · rw [hnone, hglobal]

private theorem canonical_execute {statement : Statement} (hs : s.Canonical)
    (hmade : statement.MadeOf Token.Proper) (h : execute s statement = .ok s') : s'.Canonical := by
  cases statement with
  | assign name nameSpan value =>
    simp only [execute] at h
    split at h
    · cases h
    · obtain ⟨v, hv, rfl⟩ := Except.map_eq_ok_iff.1 h
      exact hs.assign (canonical_evaluate hs hmade.2 hv) name
  | expression value =>
    simp only [execute] at h
    obtain ⟨v, -, rfl⟩ := Except.map_eq_ok_iff.1 h
    exact hs

/-- Whatever statements are carried out, and wherever they stop, the scope stays canonical. -/
theorem canonical_executeAll (hs : s.Canonical)
    (hmade : ∀ statement ∈ program, statement.MadeOf Token.Proper) :
    (executeAll s program).1.Canonical := by
  induction program generalizing s with
  | nil => exact hs
  | cons statement rest ih =>
    obtain ⟨hfirst, hrest⟩ := List.forall_mem_cons.1 hmade
    simp only [executeAll]
    cases h : execute s statement with
    | error fault => exact hs
    | ok between => exact ih (canonical_execute hs hfirst h) hrest

end Runs

namespace Interpreter

/-- Whether an interpreter makes canonical values only, which are displayed on one line. All nodes
of all expressions of a source have such values, in the scope in front of every statement and in
the one in which the run ends; so have the variables that lines bind, and the globals that a run
leaves. -/
structure KeepsCanonical (i : Interpreter) : Prop where
  node : ∀ source program, parse source = .ok program → ∀ count, ∀ s ∈ program, ∀ e,
    s.value.HasNode e → ∀ v,
      evaluate (executeAll (.fresh i.globals) (program.take count)).1 e = .ok v → v.Canonical
  bound : ∀ lines bound, i.evaluateLines lines = .ok bound → ∀ name v,
    bound.get? name = some v → v.Canonical
  globals : ∀ source name v, (i.run source).1.get? name = some v → v.Canonical
  display : ∀ v : Value, v.Canonical → OneLine v.display

section Canonical

variable {i : Interpreter} (hi : ∀ name v, i.get? name = some v → v.Canonical)
include hi

private theorem canonical_scope {source : String} {program : List Statement}
    (h : parse source = .ok program) (count : Nat) :
    (executeAll (.fresh i.globals) (program.take count)).1.Canonical := by
  refine canonical_executeAll (Scope.canonical_of hi nofun) fun statement hs => ?_
  exact madeOf_parse (fun ls hls => proper_of_tokenize hls) h (List.mem_of_mem_take hs)

private theorem canonical_run {source : String} {name : String} {v : Value}
    (h : (i.run source).1.get? name = some v) : v.Canonical := by
  unfold run at h
  cases hparse : parse source with
  | error problems =>
    rw [hparse] at h
    exact hi name v h
  | ok program =>
    have hscope := canonical_scope hi hparse program.length
    have hkept := executeAll_globals (.fresh i.globals) program
    rw [List.take_length] at hscope
    rw [hparse] at h
    refine hscope.extended name ?_
    rw [hkept]
    exact h

private theorem canonical_evaluateLines {lines : List String} {bound : Bindings}
    (h : i.evaluateLines lines = .ok bound) {name : String} {v : Value}
    (hv : bound.get? name = some v) : v.Canonical := by
  obtain ⟨program, hparse, hall⟩ := evaluateLines_eq_ok_iff.1 h
  have hscope := canonical_scope hi hparse program.length
  rw [List.take_length, hall] at hscope
  refine hscope.extended name ?_
  rw [OrderedMap.get?_extend, hv, Option.some_or]

end Canonical

/-- Evaluation preserves canonical values: an interpreter whose globals are canonical makes no
others, whether its runs fail or not, and displays all of them on one line. -/
theorem evaluation_keeps_canonical {i : Interpreter}
    (hi : ∀ name v, i.get? name = some v → v.Canonical) : KeepsCanonical i where
  node source program h count s hs e he v hv := by
    have hmade : s.MadeOf Token.Proper := madeOf_parse (fun ls hls => proper_of_tokenize hls) h hs
    exact canonical_evaluate (canonical_scope hi h count) (hmade.value.node he) hv
  bound lines bound h name v hv := canonical_evaluateLines hi h hv
  globals source name v h := canonical_run hi h
  display v hv := hv.oneLine_display

def textRow : Interpreter := fresh.set "a" (.texts ["x", "say \"y\""])

def longerRow : String := "b = ['w', a] + 'z'; c = d"

theorem evaluation_keeps_canonical_failing :
    (∀ name v, textRow.get? name = some v → v.Canonical) ∧ KeepsCanonical textRow ∧
      ((textRow.run longerRow).1.get? "b").bind Value.texts? =
          some ["wz", "xz", "say \"y\"z"] ∧
        (textRow.run longerRow).2.isOk = false := by
  have hrow : Value.Canonical (.texts ["x", "say \"y\""]) := by
    refine .texts (Nat.le_refl 2) ?_
    simp [OneLine, isLineEnd]
  have hnone : ∀ name v, (OrderedMap.empty : Bindings).get? name = some v → v.Canonical := nofun
  have hglobals : ∀ name v, textRow.get? name = some v → v.Canonical := canonical_insert hnone hrow
  have hrun : ((textRow.run longerRow).1.get? "b").bind Value.texts? =
        some ["wz", "xz", "say \"y\"z"] ∧
      (textRow.run longerRow).2.isOk = false := by decide +kernel
  exact ⟨hglobals, evaluation_keeps_canonical hglobals, hrun⟩

end Interpreter

end DiagramScope.Script
