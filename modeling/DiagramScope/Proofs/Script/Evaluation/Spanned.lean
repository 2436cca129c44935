import DiagramScope.Proofs.Script.Evaluation.Placement
import DiagramScope.Proofs.Script.Parser.Soundness

/-!
Where the spans of syntax trees and of evaluation faults come from. Main statements: what holds of
the spans of all tokens and goes over to unions holds of every span in the statements that are read
from them, and evaluation points at no other spans than those of its statements.
-/

set_option autoImplicit false
set_option relaxedAutoImplicit false

namespace DiagramScope.Script

/-- Every span in an expression satisfies `P`. -/
inductive Expr.Spanned (P : Span → Prop) : Expr → Prop where
  | number (value : Float) {span : Span} (h : P span) : Spanned P (.number value span)
  | text (content : String) {span : Span} (h : P span) : Spanned P (.text content span)
  | reference (name : String) {span : Span} (h : P span) : Spanned P (.reference name span)
  | vector {items : List Expr} {span : Span} (hitems : ∀ e ∈ items, Spanned P e) (h : P span) :
      Spanned P (.vector items span)
  | call (name : String) {nameSpan : Span} {arguments : List Expr} {span : Span}
      (hname : P nameSpan) (harguments : ∀ e ∈ arguments, Spanned P e) (h : P span) :
      Spanned P (.call name nameSpan arguments span)
  | signed (sign : Sign) {operand : Expr} {span : Span} (hoperand : Spanned P operand)
      (h : P span) : Spanned P (.signed sign operand span)
  | binary (operator : Operator) {left right : Expr} {span : Span} (hleft : Spanned P left)
      (hright : Spanned P right) (h : P span) : Spanned P (.binary operator left right span)

def Statement.Spanned (P : Span → Prop) : Statement → Prop
  | assign _ nameSpan value => P nameSpan ∧ value.Spanned P
  | expression value => value.Spanned P

variable {P : Span → Prop} {f : Span → Span}

namespace Expr.Spanned

variable {e : Expr}

private theorem span (h : e.Spanned P) : P e.span := by
  cases h <;> assumption

private theorem withSpan (h : e.Spanned P) {span : Span} (hspan : P span) :
    (e.withSpan span).Spanned P := by
  cases h with
  | number value => exact .number value hspan
  | text content => exact .text content hspan
  | reference name => exact .reference name hspan
  | vector hitems => exact .vector hitems hspan
  | call name hname harguments => exact .call name hname harguments hspan
  | signed sign hoperand => exact .signed sign hoperand hspan
  | binary operator hleft hright => exact .binary operator hleft hright hspan

private theorem joined (hunion : ∀ s t, P s → P t → P (s.union t)) (operator : Operator)
    {left right : Expr} (hleft : left.Spanned P) (hright : right.Spanned P) :
    (Expr.joined operator left right).Spanned P :=
  .binary operator hleft hright (hunion _ _ hleft.span hright.span)

private theorem mapSpan_eq (hf : ∀ s, P s → f s = s) (h : e.Spanned P) : e.mapSpan f = e := by
  have hall {es : List Expr} (ih : ∀ e ∈ es, e.mapSpan f = e) : es.map (Expr.mapSpan f) = es :=
    (List.map_congr_left ih).trans (List.map_id' es)
  induction h with
  | number value h => exact congrArg (Expr.number value) (hf _ h)
  | text content h => exact congrArg (Expr.text content) (hf _ h)
  | reference name h => exact congrArg (Expr.reference name) (hf _ h)
  | vector _ h ih => rw [mapSpan, mapSpanAll_eq_map, hall ih, hf _ h]
  | call name hname _ h ih => rw [mapSpan, mapSpanAll_eq_map, hall ih, hf _ hname, hf _ h]
  | signed sign _ h ih => rw [mapSpan, ih, hf _ h]
  | binary operator _ _ h ihLeft ihRight => rw [mapSpan, ihLeft, ihRight, hf _ h]

end Expr.Spanned

private theorem Statement.Spanned.mapSpan_eq {s : Statement} (hf : ∀ s, P s → f s = s)
    (h : s.Spanned P) : s.mapSpan f = s := by
  cases s with
  | assign name nameSpan value =>
    rw [mapSpan, hf _ h.1, h.2.mapSpan_eq hf]
  | expression value => rw [mapSpan, Expr.Spanned.mapSpan_eq hf h]

namespace Grammar

/-- Every span in the tree of a phrase satisfies `P`, given that those of the operands do that are
joined to it already. -/
def Phrase.Spanned (P : Span → Prop) : Phrase → Prop
  | chain _ e => e.Spanned P
  | links _ left e => left.Spanned P → e.Spanned P
  | unary e => e.Spanned P
  | power e => e.Spanned P
  | primary e => e.Spanned P
  | items es => ∀ e ∈ es, e.Spanned P
  | moreItems es => ∀ e ∈ es, e.Spanned P

private theorem spanned_of_operand {k : Chain} {e : Expr} (h : (k.operand e).Spanned P) :
    e.Spanned P := by
  cases k <;> exact h

variable (hunion : ∀ s t, P s → P t → P (s.union t))

include hunion

private theorem spanned_of_derives {φ : Phrase} {n : Nat} {ts rest : List Lexeme}
    (h : Derives φ n ts rest) (hts : ∀ l ∈ ts, P l.span) : φ.Spanned P := by
  induction h with
  | chain hfirst _ ihFirst ihLinks =>
    have hbehind := fun l hl => hts l (hfirst.suffix.subset hl)
    exact ihLinks hbehind (spanned_of_operand (ihFirst hts))
  | noLink => exact id
  | link _ hright _ ihRight ihLinks =>
    intro hleft
    have hafter := fun l hl => hts l (List.mem_cons_of_mem _ hl)
    have hbehind := fun l hl => hafter l (hright.suffix.subset hl)
    exact ihLinks hbehind (hleft.joined hunion _ (spanned_of_operand (ihRight hafter)))
  | sign _ _ ih =>
    have hoperand := ih fun l hl => hts l (List.mem_cons_of_mem _ hl)
    exact .signed _ hoperand (hunion _ _ (hts _ List.mem_cons_self) (Expr.Spanned.span hoperand))
  | unsigned _ ih | base _ ih => exact ih hts
  | raised hbase _ ihBase ihExponent =>
    have hbehind := fun l hl => hts l (hbase.suffix.subset (List.mem_cons_of_mem _ hl))
    exact Expr.Spanned.joined hunion _ (ihBase hts) (ihExponent hbehind)
  | number value => exact .number value (hts _ List.mem_cons_self)
  | text content => exact .text content (hts _ List.mem_cons_self)
  | reference name => exact .reference name (hts _ List.mem_cons_self)
  | call name nameSpan _ close h ih =>
    have hbehind := fun l hl => hts l (List.mem_cons_of_mem _ (List.mem_cons_of_mem _ hl))
    have hname : P nameSpan := hts _ List.mem_cons_self
    have hclose : P close := hbehind _ (h.suffix.subset List.mem_cons_self)
    exact .call name hname (ih hbehind) (hunion _ _ hname hclose)
  | vector opening close h ih =>
    have hbehind := fun l hl => hts l (List.mem_cons_of_mem _ hl)
    have hclose : P close := hbehind _ (h.suffix.subset List.mem_cons_self)
    exact .vector (ih hbehind) (hunion _ _ (hts _ List.mem_cons_self) hclose)
  | group opening close h ih =>
    have hbehind := fun l hl => hts l (List.mem_cons_of_mem _ hl)
    have hclose : P close := hbehind _ (h.suffix.subset List.mem_cons_self)
    exact Expr.Spanned.withSpan (ih hbehind) (hunion _ _ (hts _ List.mem_cons_self) hclose)
  | noItems | noMore => exact nofun
  | items hfirst _ ihFirst ihMore =>
    exact List.forall_mem_cons.2 ⟨ihFirst hts, ihMore fun l hl => hts l (hfirst.suffix.subset hl)⟩
  | more _ hitem _ ihItem ihMore =>
    have hafter := fun l hl => hts l (List.mem_cons_of_mem _ hl)
    exact List.forall_mem_cons.2
      ⟨ihItem hafter, ihMore fun l hl => hafter l (hitem.suffix.subset hl)⟩

private theorem spanned_of_isStatement {s : Statement} {n : Nat} {ts rest : List Lexeme}
    (h : IsStatement s n ts rest) (hts : ∀ l ∈ ts, P l.span) : s.Spanned P := by
  cases h with
  | assign _ _ _ h =>
    have hbehind := fun l hl => hts l (List.mem_cons_of_mem _ (List.mem_cons_of_mem _ hl))
    exact ⟨hts _ List.mem_cons_self, spanned_of_derives hunion h hbehind⟩
  | expression h => exact spanned_of_derives hunion h hts

theorem spanned_of_isProgram {program : List Statement} {n : Nat} {ts : List Lexeme}
    (h : IsProgram program n ts) (hts : ∀ l ∈ ts, P l.span) : ∀ s ∈ program, s.Spanned P := by
  induction h with
  | nil => exact nofun
  | separator _ _ ih => exact ih fun l hl => hts l (List.mem_cons_of_mem _ hl)
  | last h => exact List.forall_mem_singleton.2 (spanned_of_isStatement hunion h hts)
  | cons hfirst _ _ ih =>
    have hbehind := fun l hl => hts l (hfirst.suffix.subset (List.mem_cons_of_mem _ hl))
    exact List.forall_mem_cons.2 ⟨spanned_of_isStatement hunion hfirst hts, ih hbehind⟩

end Grammar

private theorem EvaluationFault.labels_mapSpan (fault : EvaluationFault) :
    (fault.mapSpan f).diagnostic.labels =
      fault.diagnostic.labels.map fun l => { l with span := f l.span } := by
  cases fault <;> rfl

/-- A fault points at a span of the statements that it comes from, as it would be elsewhere if all
of these were. -/
theorem label_of_executeAll {scope : Scope} {program : List Statement}
    (hprogram : ∀ s ∈ program, s.Spanned P) {fault : EvaluationFault}
    (h : (executeAll scope program).2 = some fault) : ∀ l ∈ fault.diagnostic.labels, P l.span := by
  classical
  -- Every span without the property is changed, and the fault stays the same.
  let f (s : Span) : Span := if P s then s else s.shift 1
  have hf (s : Span) (hs : P s) : f s = s := if_pos hs
  have hsame : program.map (Statement.mapSpan f) = program :=
    (List.map_congr_left fun s hs => (hprogram s hs).mapSpan_eq hf).trans (List.map_id' program)
  have hfault : fault.mapSpan f = fault := by
    have hmoved := congrArg Prod.snd (executeAll_mapSpan f scope program)
    rw [hsame, h] at hmoved
    exact (Option.some.inj hmoved).symm
  have hlabels := fault.labels_mapSpan (f := f)
  rw [hfault] at hlabels
  intro l hl
  have hspan : f l.span = l.span := by
    have hmap := List.map_inj_left.1 (hlabels.symm.trans (List.map_id' _).symm) l hl
    exact congrArg Label.span hmap
  by_cases hlabel : P l.span
  · exact hlabel
  · have hshift : f l.span = l.span.shift 1 := if_neg hlabel
    have hstart := congrArg Span.start (hshift.symm.trans hspan)
    exact absurd hstart (Nat.succ_ne_self _)

end DiagramScope.Script
