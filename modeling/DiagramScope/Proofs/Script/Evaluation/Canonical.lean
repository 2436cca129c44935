import DiagramScope.Except
import DiagramScope.Proofs.Script.Evaluation.Layers
import DiagramScope.Proofs.Script.Parser.Origin
import DiagramScope.Proofs.Script.Value.Copy

/-!
Which variables an evaluation can bind. Main statement: whatever lines are evaluated, the variables
that they bind have names that a statement can assign to, and canonical values.
-/

set_option autoImplicit false
set_option relaxedAutoImplicit false

namespace DiagramScope.Script

namespace Value

private theorem canonical_ofNumbers (cells : List Float) : (ofNumbers cells).Canonical :=
  match cells with
  | [] => .empty
  | [x] => .number x
  | _ :: _ :: _ => .row (Nat.le_add_left 2 _)

private theorem canonical_ofTexts {cells : List String} (h : ∀ s ∈ cells, OneLine s) :
    (ofTexts cells).Canonical :=
  match cells, h with
  | [], _ => .empty
  | [_], h => .text (h _ (List.mem_singleton.2 rfl))
  | _ :: _ :: _, h => .texts (Nat.le_add_left 2 _) h

private theorem Canonical.oneLine_of_texts? {v : Value} (hv : v.Canonical) {cells : List String}
    (h : v.texts? = some cells) : ∀ s ∈ cells, OneLine s := by
  cases hv with
  | text hline =>
    obtain rfl := Option.some.inj h
    exact List.forall_mem_singleton.2 hline
  | texts _ hline =>
    obtain rfl := Option.some.inj h
    exact hline
  | _ => cases h

private theorem oneLine_numberText (x : Float) : OneLine (String.ofList (numberText x)) := by
  intro c hc
  rw [String.toList_ofList] at hc
  exact isLineEnd_numberText x c hc

end Value

open Value (Canonical)

theorem oneLine_append {s t : String} (hs : OneLine s) (ht : OneLine t) : OneLine (s ++ t) := by
  intro c hc
  rw [String.toList_append] at hc
  exact (List.mem_append.1 hc).elim (hs c) (ht c)

private theorem oneLine_broadcast {left right cells : List String}
    (hleft : ∀ s ∈ left, OneLine s) (hright : ∀ s ∈ right, OneLine s)
    (h : broadcast (fun x y => x ++ y) left right = some cells) : ∀ s ∈ cells, OneLine s := by
  unfold broadcast at h
  split at h
  · obtain rfl := Option.some.inj h
    intro s hs
    obtain ⟨t, ht, rfl⟩ := List.mem_map.1 hs
    exact oneLine_append (hleft _ (List.mem_singleton.2 rfl)) (hright t ht)
  · obtain rfl := Option.some.inj h
    intro s hs
    obtain ⟨t, ht, rfl⟩ := List.mem_map.1 hs
    exact oneLine_append (hleft t ht) (hright _ (List.mem_singleton.2 rfl))
  · split at h
    · obtain rfl := Option.some.inj h
      intro s hs
      obtain ⟨i, hi, rfl⟩ := List.mem_iff_getElem.1 hs
      rw [List.getElem_zipWith]
      exact oneLine_append (hleft _ (List.getElem_mem _)) (hright _ (List.getElem_mem _))
    · cases h

private theorem canonical_applyOperator {operator : Operator} {left right v : Value} {span : Span}
    (hleft : left.Canonical) (hright : right.Canonical)
    (h : applyOperator operator left right span = .ok v) : v.Canonical := by
  unfold applyOperator at h
  split at h
  · next a b ha hb =>
    obtain ⟨cells, hcells, rfl⟩ := Except.map_eq_ok_iff.1 h
    unfold combine at hcells
    split at hcells
    · next cells' hbroadcast =>
      obtain rfl := Except.ok.inj hcells
      exact Value.canonical_ofTexts (oneLine_broadcast (hleft.oneLine_of_texts? ha)
        (hright.oneLine_of_texts? hb) hbroadcast)
    · cases hcells
  · split at h
    · unfold applyNumeric at h
      split at h
      · obtain rfl := Except.ok.inj h
        exact .empty
      · obtain ⟨cells, -, rfl⟩ := Except.map_eq_ok_iff.1 h
        exact Value.canonical_ofNumbers cells
    · cases h

private theorem canonical_applySign {sign : Sign} {operand v : Value} {span : Span}
    (h : applySign sign operand span = .ok v) : v.Canonical := by
  unfold applySign at h
  split at h
  · obtain rfl := Except.ok.inj h
    exact Value.canonical_ofNumbers _
  · cases h

private theorem canonical_elementAt {name : String} {target index v : Value} {span : Span}
    (htarget : target.Canonical) (h : elementAt name target index span = .ok v) : v.Canonical := by
  unfold elementAt at h
  split at h
  · cases h
  · split at h
    · next value hvalue =>
      obtain rfl := Except.ok.inj h
      unfold element? at hvalue
      cases htarget with
      | empty => cases hvalue
      | row _ =>
        obtain ⟨x, -, rfl⟩ := Option.map_eq_some_iff.1 hvalue
        exact .number x
      | texts _ hline =>
        obtain ⟨s, hs, rfl⟩ := Option.map_eq_some_iff.1 hvalue
        exact .text (hline s (List.mem_of_getElem? hs))
      | list hitems => exact hitems _ (List.mem_of_getElem? hvalue)
      | number x =>
        dsimp only at hvalue
        split at hvalue
        · exact Option.some.inj hvalue ▸ .number x
        · cases hvalue
      | bool b =>
        dsimp only at hvalue
        split at hvalue
        · exact Option.some.inj hvalue ▸ .bool b
        · cases hvalue
      | text hline =>
        dsimp only at hvalue
        split at hvalue
        · exact Option.some.inj hvalue ▸ .text hline
        · cases hvalue
    · cases h

private theorem canonical_constant? {name : String} {v : Value} (h : constant? name = some v) :
    v.Canonical := by
  unfold constant? at h
  repeat' split at h
  all_goals cases h
  all_goals constructor

namespace Builtin

private theorem canonical_sizeOf (v : Value) : (sizeOf v).Canonical := by
  cases v <;> (unfold sizeOf; constructor)
  all_goals exact Nat.le_refl 2

private theorem canonical_textOf? {v w : Value} (hv : v.Canonical) (h : textOf? v = some w) :
    w.Canonical := by
  cases hv with
  | empty =>
    obtain rfl := Option.some.inj h
    exact .text nofun
  | number x =>
    obtain rfl := Option.some.inj h
    exact .text (Value.oneLine_numberText x)
  | row hlength =>
    obtain rfl := Option.some.inj h
    apply Value.Canonical.texts (by rw [List.length_map]; exact hlength)
    intro s hs
    obtain ⟨x, -, rfl⟩ := List.mem_map.1 hs
    exact Value.oneLine_numberText x
  | bool b =>
    obtain rfl := Option.some.inj h
    refine .text ?_
    cases b <;> (intro c hc; obtain rfl := List.mem_singleton.1 hc; rfl)
  | text hline =>
    obtain rfl := Option.some.inj h
    exact .text hline
  | texts hlength hline =>
    obtain rfl := Option.some.inj h
    exact .texts hlength hline
  | list _ => cases h

private theorem canonical_applyExtremum {choose : Float → Float → Float} {name : String}
    {arguments : List Value} {span : Span} {v : Value}
    (h : applyExtremum choose name arguments span = .ok v) : v.Canonical := by
  unfold applyExtremum at h
  split at h
  · obtain ⟨cells, -, hcells⟩ := Except.bind_eq_ok_iff.1 h
    split at hcells
    · obtain rfl := Except.ok.inj hcells
      exact .empty
    · obtain rfl := Except.ok.inj hcells
      exact .number _
  · obtain ⟨left, -, hrest⟩ := Except.bind_eq_ok_iff.1 h
    obtain ⟨right, -, hrest⟩ := Except.bind_eq_ok_iff.1 hrest
    obtain ⟨cells, -, hpure⟩ := Except.bind_eq_ok_iff.1 hrest
    obtain rfl := Except.ok.inj hpure
    exact Value.canonical_ofNumbers cells
  · cases h

private theorem canonical_apply {builtin : Builtin} {name : String} {arguments : List Value}
    {span : Span} {v : Value} (harguments : ∀ a ∈ arguments, a.Canonical)
    (h : builtin.apply name arguments span = .ok v) : v.Canonical := by
  unfold apply at h
  split at h
  · obtain rfl := Except.ok.inj h
    exact .list harguments
  · exact canonical_applyExtremum h
  · obtain ⟨cells, -, rfl⟩ := Except.map_eq_ok_iff.1 h
    exact Value.canonical_ofNumbers _
  · obtain rfl := Except.ok.inj h
    exact canonical_sizeOf _
  · split at h
    · next argument value hvalue =>
      obtain rfl := Except.ok.inj h
      exact canonical_textOf? (harguments _ (List.mem_singleton.2 rfl)) hvalue
    · cases h
  · cases h

end Builtin

namespace Cells

private theorem oneLine_append {cells cells' : Cells} {item : Value} {span : Span}
    (hitem : item.Canonical)
    (hcells : ∀ s ∈ cells.texts, OneLine s) (h : cells.append item span = .ok cells') :
    ∀ s ∈ cells'.texts, OneLine s := by
  unfold append append.checked at h
  split at h
  · split at h
    · cases h
    · obtain rfl := Except.ok.inj h
      exact hcells
  · next more hmore _ =>
    split at h
    · cases h
    · obtain rfl := Except.ok.inj h
      intro s hs
      exact (List.mem_append.1 hs).elim (hcells s) (hitem.oneLine_of_texts? hmore s)
  · cases h

private theorem canonical_toValue {cells : Cells} (h : ∀ s ∈ cells.texts, OneLine s) :
    cells.toValue.Canonical := by
  unfold toValue
  split
  · exact Value.canonical_ofNumbers _
  · exact Value.canonical_ofTexts h

end Cells

def Scope.Canonical (scope : Scope) : Prop :=
  ∀ name v, scope.lookup? name = some v → v.Canonical

theorem Scope.canonical_of {scope : Scope}
    (hglobals : ∀ name v, scope.globals.get? name = some v → v.Canonical)
    (hlocals : ∀ name v, scope.locals.get? name = some v → v.Canonical) : scope.Canonical := by
  intro name v hv
  unfold lookup? at hv
  split at hv
  · next value hvalue => exact hlocals name v (hvalue.trans hv)
  · split at hv
    · next value hvalue => exact hglobals name v (hvalue.trans hv)
    · exact canonical_constant? hv

mutual

/-- Expressions over canonical values that are made of tokens of a source have canonical values. -/
theorem canonical_evaluate {scope : Scope} (hscope : scope.Canonical) {e : Expr}
    (he : e.MadeOf Token.Proper) {v : Value} (h : evaluate scope e = .ok v) : v.Canonical := by
  cases e with
  | number value span =>
    simp only [evaluate] at h
    obtain rfl := Except.ok.inj h
    exact .number value
  | text content span =>
    simp only [evaluate] at h
    obtain rfl := Except.ok.inj h
    cases he with
    | text hline => exact .text hline
  | reference name span =>
    simp only [evaluate] at h
    split at h
    · next value hvalue =>
      obtain rfl := Except.ok.inj h
      exact hscope name _ hvalue
    · cases h
  | vector items span =>
    simp only [evaluate] at h
    obtain ⟨cells, hcells, rfl⟩ := Except.map_eq_ok_iff.1 h
    cases he with
    | vector hitems =>
      have hnone : ∀ s ∈ Cells.none.texts, OneLine s := List.forall_mem_nil _
      exact Cells.canonical_toValue (oneLine_collect hscope hitems hnone hcells)
  | call name nameSpan arguments span =>
    cases he with
    | call hname harguments =>
      simp only [evaluate] at h
      split at h
      · next target htarget =>
        split at h
        · obtain ⟨index, -, helement⟩ := Except.bind_eq_ok_iff.1 h
          exact canonical_elementAt (hscope name target htarget) helement
        · cases h
      · split at h
        · obtain ⟨values, hvalues, happly⟩ := Except.bind_eq_ok_iff.1 h
          exact Builtin.canonical_apply (canonical_evaluateAll hscope harguments hvalues) happly
        · cases h
  | signed sign operand span =>
    simp only [evaluate] at h
    obtain ⟨value, -, hvalue⟩ := Except.bind_eq_ok_iff.1 h
    exact canonical_applySign hvalue
  | binary operator left right span =>
    simp only [evaluate] at h
    obtain ⟨a, ha, hrest⟩ := Except.bind_eq_ok_iff.1 h
    obtain ⟨b, hb, hvalue⟩ := Except.bind_eq_ok_iff.1 hrest
    cases he with
    | binary _ hleft hright =>
      exact canonical_applyOperator (canonical_evaluate hscope hleft ha)
        (canonical_evaluate hscope hright hb) hvalue

private theorem canonical_evaluateAll {scope : Scope} (hscope : scope.Canonical) {es : List Expr}
    (hes : ∀ e ∈ es, e.MadeOf Token.Proper) {vs : List Value} (h : evaluateAll scope es = .ok vs) :
    ∀ v ∈ vs, v.Canonical := by
  cases es with
  | nil =>
    simp only [evaluateAll] at h
    obtain rfl := Except.ok.inj h
    exact fun v hv => absurd hv List.not_mem_nil
  | cons e rest =>
    simp only [evaluateAll] at h
    obtain ⟨value, hvalue, hmore⟩ := Except.bind_eq_ok_iff.1 h
    obtain ⟨values, hvalues, hpure⟩ := Except.bind_eq_ok_iff.1 hmore
    obtain rfl := Except.ok.inj hpure
    obtain ⟨he, hrest⟩ := List.forall_mem_cons.1 hes
    exact List.forall_mem_cons.2 ⟨canonical_evaluate hscope he hvalue,
      canonical_evaluateAll hscope hrest hvalues⟩

private theorem oneLine_collect {scope : Scope} (hscope : scope.Canonical) {cells cells' : Cells}
    {es : List Expr}
    (hes : ∀ e ∈ es, e.MadeOf Token.Proper) (hcells : ∀ s ∈ cells.texts, OneLine s)
    (h : collect scope cells es = .ok cells') : ∀ s ∈ cells'.texts, OneLine s := by
  cases es with
  | nil =>
    simp only [collect] at h
    obtain rfl := Except.ok.inj h
    exact hcells
  | cons e rest =>
    simp only [collect] at h
    obtain ⟨value, hvalue, hmore⟩ := Except.bind_eq_ok_iff.1 h
    obtain ⟨cells₁, hcells₁, hmore⟩ := Except.bind_eq_ok_iff.1 hmore
    obtain ⟨he, hrest⟩ := List.forall_mem_cons.1 hes
    exact oneLine_collect hscope hrest
      (Cells.oneLine_append (canonical_evaluate hscope he hvalue) hcells hcells₁) hmore

end

theorem canonical_insert {bound : Bindings} (h : ∀ name v, bound.get? name = some v → v.Canonical)
    {name : String} {v : Value} (hv : v.Canonical) :
    ∀ key w, (bound.insert name v).get? key = some w → w.Canonical := by
  intro key w hw
  by_cases hkey : key = name
  · subst hkey
    rw [OrderedMap.get?_insert_self] at hw
    exact Option.some.inj hw ▸ hv
  · rw [OrderedMap.get?_insert_of_ne _ hkey] at hw
    exact h key w hw

/-- What evaluation can bind: names that can be assigned to, with canonical values. -/
structure Assignable (bound : Bindings) : Prop where
  isName : ∀ name ∈ bound.keys, IsName name
  constant : ∀ name ∈ bound.keys, constant? name = none
  canonical : ∀ name v, bound.get? name = some v → v.Canonical

private theorem Assignable.insert {bound : Bindings} (h : Assignable bound) {name : String}
    {v : Value} (hname : IsName name) (hconstant : constant? name = none) (hv : v.Canonical) :
    Assignable (bound.insert name v) := by
  refine ⟨fun key hkey => ?_, fun key hkey => ?_, canonical_insert h.canonical hv⟩
  · rcases (OrderedMap.mem_keys_insert _ _ _ _).1 hkey with rfl | hkey
    · exact hname
    · exact h.isName key hkey
  · rcases (OrderedMap.mem_keys_insert _ _ _ _).1 hkey with rfl | hkey
    · exact hconstant
    · exact h.constant key hkey

private theorem assignable_execute {s s' : Scope} {statement : Statement}
    (hglobals : s.globals = .empty)
    (hs : Assignable s.locals) (hmade : statement.MadeOf Token.Proper)
    (h : execute s statement = .ok s') : Assignable s'.locals := by
  have hscope : s.Canonical := Scope.canonical_of (hglobals ▸ nofun) hs.canonical
  cases statement with
  | assign name nameSpan value =>
    obtain ⟨hname, hvalue⟩ := hmade
    simp only [execute] at h
    split at h
    · cases h
    · next hconstant =>
      obtain ⟨v, hv, rfl⟩ := Except.map_eq_ok_iff.1 h
      have hnone : constant? name = none := by
        rw [Option.isSome_iff_exists, not_exists] at hconstant
        exact Option.eq_none_iff_forall_ne_some.2 hconstant
      exact hs.insert hname hnone (canonical_evaluate hscope hvalue hv)
  | expression value =>
    simp only [execute] at h
    obtain ⟨v, -, rfl⟩ := Except.map_eq_ok_iff.1 h
    exact hs

private theorem assignable_executeAll {s s' : Scope} {program : List Statement}
    (hglobals : s.globals = .empty) (hs : Assignable s.locals)
    (hmade : ∀ statement ∈ program, statement.MadeOf Token.Proper)
    (h : executeAll s program = (s', none)) : Assignable s'.locals := by
  induction program generalizing s with
  | nil =>
    obtain ⟨rfl, -⟩ := Prod.mk.inj h
    exact hs
  | cons statement rest ih =>
    obtain ⟨hfirst, hrest⟩ := List.forall_mem_cons.1 hmade
    simp only [executeAll] at h
    cases hexecute : execute s statement with
    | error fault => rw [hexecute] at h; cases h
    | ok between =>
      rw [hexecute] at h
      have hkept : between.globals = .empty := (execute_globals hexecute).trans hglobals
      exact ih hkept (assignable_execute hglobals hs hfirst hexecute) hrest h

/-- Lines that are evaluated without globals bind assignable variables. -/
theorem assignable_of_evaluateLines {lines : List String} {bound : Bindings}
    (h : Interpreter.fresh.evaluateLines lines = .ok bound) : Assignable bound := by
  obtain ⟨program, hparse, hrun⟩ := Interpreter.evaluateLines_eq_ok_iff.1 h
  refine assignable_executeAll (s := .fresh .empty) rfl ?_ ?_ hrun
  · exact ⟨nofun, nofun, nofun⟩
  · exact fun statement hs => madeOf_parse (fun ls hls => proper_of_tokenize hls) hparse hs

end DiagramScope.Script
