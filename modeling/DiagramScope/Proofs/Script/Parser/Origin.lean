import DiagramScope.Proofs.Script.Parser.Soundness

/-!
Where syntax trees come from. Main statement: what holds of all tokens of a source holds of every
name, number and text in the statements that are read from it.
-/

set_option autoImplicit false
set_option relaxedAutoImplicit false

namespace DiagramScope.Script

/-- Every token that shows in an expression satisfies `P`. -/
inductive Expr.MadeOf (P : Token → Prop) : Expr → Prop where
  | number {value : Float} (h : P (.number value)) (span : Span) : MadeOf P (.number value span)
  | text {content : String} (h : P (.text content)) (span : Span) : MadeOf P (.text content span)
  | reference {name : String} (h : P (.name name)) (span : Span) :
      MadeOf P (.reference name span)
  | vector {items : List Expr} (h : ∀ e ∈ items, MadeOf P e) (span : Span) :
      MadeOf P (.vector items span)
  | call {name : String} {arguments : List Expr} (hname : P (.name name))
      (h : ∀ e ∈ arguments, MadeOf P e) (nameSpan span : Span) :
      MadeOf P (.call name nameSpan arguments span)
  | signed (sign : Sign) {operand : Expr} (h : MadeOf P operand) (span : Span) :
      MadeOf P (.signed sign operand span)
  | binary (operator : Operator) {left right : Expr} (hleft : MadeOf P left)
      (hright : MadeOf P right) (span : Span) : MadeOf P (.binary operator left right span)

def Statement.MadeOf (P : Token → Prop) : Statement → Prop
  | assign name _ value => P (.name name) ∧ value.MadeOf P
  | expression value => value.MadeOf P

variable {P : Token → Prop}

private theorem Expr.MadeOf.withSpan {e : Expr} (h : e.MadeOf P) (span : Span) :
    (e.withSpan span).MadeOf P := by
  cases h with
  | number h => exact .number h span
  | text h => exact .text h span
  | reference h => exact .reference h span
  | vector h => exact .vector h span
  | call hname h nameSpan => exact .call hname h nameSpan span
  | signed sign h => exact .signed sign h span
  | binary operator hleft hright => exact .binary operator hleft hright span

namespace Grammar

/-- Every token that shows in the tree of a phrase satisfies `P`, given that those of the operands
do that are joined to it already. -/
def Phrase.MadeOf (P : Token → Prop) : Phrase → Prop
  | chain _ e => e.MadeOf P
  | links _ left e => left.MadeOf P → e.MadeOf P
  | unary e => e.MadeOf P
  | power e => e.MadeOf P
  | primary e => e.MadeOf P
  | items es => ∀ e ∈ es, e.MadeOf P
  | moreItems es => ∀ e ∈ es, e.MadeOf P

private theorem madeOf_of_operand {k : Chain} {e : Expr} (h : (k.operand e).MadeOf P) :
    e.MadeOf P := by
  cases k <;> exact h

private theorem madeOf_of_derives {φ : Phrase} {n : Nat} {ts rest : List Lexeme}
    (h : Derives φ n ts rest) (hts : ∀ l ∈ ts, P l.token) : φ.MadeOf P := by
  induction h with
  | chain hfirst _ ihFirst ihLinks =>
    have hbehind := fun l hl => hts l (hfirst.suffix.subset hl)
    exact ihLinks hbehind (madeOf_of_operand (ihFirst hts))
  | noLink => exact id
  | link _ hright _ ihRight ihLinks =>
    intro hleft
    have hafter := fun l hl => hts l (List.mem_cons_of_mem _ hl)
    have hbehind := fun l hl => hafter l (hright.suffix.subset hl)
    exact ihLinks hbehind (.binary _ hleft (madeOf_of_operand (ihRight hafter)) _)
  | sign _ _ ih => exact .signed _ (ih fun l hl => hts l (List.mem_cons_of_mem _ hl)) _
  | unsigned _ ih | base _ ih => exact ih hts
  | raised hbase _ ihBase ihExponent =>
    have hbehind := fun l hl => hts l (hbase.suffix.subset (List.mem_cons_of_mem _ hl))
    exact .binary .power (ihBase hts) (ihExponent hbehind) _
  | number value span => exact .number (hts _ List.mem_cons_self) span
  | text content span => exact .text (hts _ List.mem_cons_self) span
  | reference name span => exact .reference (hts _ List.mem_cons_self) span
  | call _ nameSpan _ _ _ ih =>
    have hbehind := fun l hl => hts l (List.mem_cons_of_mem _ (List.mem_cons_of_mem _ hl))
    exact .call (hts _ List.mem_cons_self) (ih hbehind) nameSpan _
  | vector _ _ _ ih => exact .vector (ih fun l hl => hts l (List.mem_cons_of_mem _ hl)) _
  | group _ _ _ ih =>
    have hinner := ih fun l hl => hts l (List.mem_cons_of_mem _ hl)
    exact Expr.MadeOf.withSpan hinner _
  | noItems | noMore => exact nofun
  | items hfirst _ ihFirst ihMore =>
    exact List.forall_mem_cons.2 ⟨ihFirst hts, ihMore fun l hl => hts l (hfirst.suffix.subset hl)⟩
  | more _ hitem _ ihItem ihMore =>
    have hafter := fun l hl => hts l (List.mem_cons_of_mem _ hl)
    exact List.forall_mem_cons.2
      ⟨ihItem hafter, ihMore fun l hl => hafter l (hitem.suffix.subset hl)⟩

private theorem madeOf_of_isStatement {s : Statement} {n : Nat} {ts rest : List Lexeme}
    (h : IsStatement s n ts rest) (hts : ∀ l ∈ ts, P l.token) : s.MadeOf P := by
  cases h with
  | assign _ _ _ h =>
    have hbehind := fun l hl => hts l (List.mem_cons_of_mem _ (List.mem_cons_of_mem _ hl))
    exact ⟨hts _ List.mem_cons_self, madeOf_of_derives h hbehind⟩
  | expression h => exact madeOf_of_derives h hts

private theorem madeOf_of_isProgram {program : List Statement} {n : Nat} {ts : List Lexeme}
    (h : IsProgram program n ts) (hts : ∀ l ∈ ts, P l.token) : ∀ s ∈ program, s.MadeOf P := by
  induction h with
  | nil => exact nofun
  | separator _ _ ih => exact ih fun l hl => hts l (List.mem_cons_of_mem _ hl)
  | last h => exact List.forall_mem_singleton.2 (madeOf_of_isStatement h hts)
  | cons hfirst _ _ ih =>
    have hbehind := fun l hl => hts l (hfirst.suffix.subset (List.mem_cons_of_mem _ hl))
    exact List.forall_mem_cons.2 ⟨madeOf_of_isStatement hfirst hts, ih hbehind⟩

end Grammar

/-- Statements are made of the tokens of their source. -/
theorem madeOf_parse {source : String} {program : List Statement}
    (hsource : ∀ ls, tokenize source = .ok ls → ∀ l ∈ ls, P l.token)
    (h : parse source = .ok program) {s : Statement} (hs : s ∈ program) : s.MadeOf P := by
  obtain ⟨ls, hls, n, -, hprogram⟩ := exists_isProgram_of_parse h
  have htokens : ∀ l ∈ significant ls, P l.token :=
    fun l hl => hsource ls hls l (List.mem_filter.1 hl).1
  exact Grammar.madeOf_of_isProgram hprogram htokens s hs

end DiagramScope.Script
