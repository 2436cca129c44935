import DiagramScope.Proofs.Script.Parser.Discipline

/-!
The grammar of statements, apart from any way to read them:

    program   statements with one separator or more between them, and any number around them
    statement name `=` sum | sum
    sum       product, then any number of `+` product and `-` product
    product   unary, then any number of `*` unary and `/` unary
    unary     sign unary | power
    power     primary | primary `^` unary
    primary   number | text | name | name `(` items `)` | `(` sum `)` | `[` items `]`
    items     nothing | sum, then any number of `,` sum

Main statements: a derived expression starts with one of the tokens that can start one, and behind
what an operator or a comma follows there is nothing that could continue it.
-/

set_option autoImplicit false
set_option relaxedAutoImplicit false

namespace DiagramScope.Script.Grammar

open DiagramScope.Script.Parser (additive? multiplicative? sign? Next)

inductive Chain where
  | sum
  | product
  deriving DecidableEq, Repr

/-- The phrases of the grammar below statements, each with the tree that it stands for. -/
inductive Phrase where
  | chain (k : Chain) (e : Expr)
  /-- The operators of a chain behind its first operands, which are joined to `left` already. -/
  | links (k : Chain) (left e : Expr)
  | unary (e : Expr)
  | power (e : Expr)
  | primary (e : Expr)
  | items (es : List Expr)
  /-- The items behind the first. -/
  | moreItems (es : List Expr)

namespace Chain

def operator? : Chain → Token → Option Operator
  | sum => additive?
  | product => multiplicative?

/-- The operands of a sum are products, and those of a product are unary. -/
def operand : Chain → Expr → Phrase
  | sum => .chain .product
  | product => .unary

end Chain

/-- The tokens between `ts` and its end `rest` derive from a phrase, with so many nesting levels.
Every unary expression is one level deeper than what it is part of, and every operator of a chain is
one level deeper than the operator before it. -/
inductive Derives : Phrase → Nat → List Lexeme → List Lexeme → Prop where
  | chain {k : Chain} {first e : Expr} {m n : Nat} {ts us rest : List Lexeme}
      (hfirst : Derives (k.operand first) m ts us) (hlinks : Derives (.links k first e) n us rest) :
      Derives (.chain k e) (max m n) ts rest
  | noLink (k : Chain) (e : Expr) (rest : List Lexeme) : Derives (.links k e e) 0 rest rest
  | link {k : Chain} {left right e : Expr} {operator : Operator} {l : Lexeme} {m n : Nat}
      {ts us rest : List Lexeme} (hl : k.operator? l.token = some operator)
      (hright : Derives (k.operand right) m ts us)
      (hlinks : Derives (.links k (.joined operator left right) e) n us rest) :
      Derives (.links k left e) (max m n + 1) (l :: ts) rest
  | sign {sign : Sign} {l : Lexeme} {operand : Expr} {n : Nat} {ts rest : List Lexeme}
      (hl : sign? l.token = some sign) (hoperand : Derives (.unary operand) n ts rest) :
      Derives (.unary (.signed sign operand (l.span.union operand.span))) (n + 1) (l :: ts) rest
  | unsigned {e : Expr} {n : Nat} {ts rest : List Lexeme} (h : Derives (.power e) n ts rest) :
      Derives (.unary e) (n + 1) ts rest
  | base {e : Expr} {n : Nat} {ts rest : List Lexeme} (h : Derives (.primary e) n ts rest) :
      Derives (.power e) n ts rest
  | raised {base exponent : Expr} {caret : Span} {m n : Nat} {ts us rest : List Lexeme}
      (hbase : Derives (.primary base) m ts (⟨.symbol .caret, caret⟩ :: us))
      (hexponent : Derives (.unary exponent) n us rest) :
      Derives (.power (.joined .power base exponent)) (max m n) ts rest
  | number (value : Float) (span : Span) (rest : List Lexeme) :
      Derives (.primary (.number value span)) 0 (⟨.number value, span⟩ :: rest) rest
  | text (content : String) (span : Span) (rest : List Lexeme) :
      Derives (.primary (.text content span)) 0 (⟨.text content, span⟩ :: rest) rest
  | reference (name : String) (span : Span) (rest : List Lexeme) :
      Derives (.primary (.reference name span)) 0 (⟨.name name, span⟩ :: rest) rest
  | call {es : List Expr} {n : Nat} {ts rest : List Lexeme} (name : String)
      (nameSpan opening close : Span)
      (h : Derives (.items es) n ts (⟨.symbol .rightParen, close⟩ :: rest)) :
      Derives (.primary (.call name nameSpan es (nameSpan.union close))) n
        (⟨.name name, nameSpan⟩ :: ⟨.symbol .leftParen, opening⟩ :: ts) rest
  | vector {es : List Expr} {n : Nat} {ts rest : List Lexeme} (opening close : Span)
      (h : Derives (.items es) n ts (⟨.symbol .rightBracket, close⟩ :: rest)) :
      Derives (.primary (.vector es (opening.union close))) n
        (⟨.symbol .leftBracket, opening⟩ :: ts) rest
  | group {e : Expr} {n : Nat} {ts rest : List Lexeme} (opening close : Span)
      (h : Derives (.chain .sum e) n ts (⟨.symbol .rightParen, close⟩ :: rest)) :
      Derives (.primary (e.withSpan (opening.union close))) n
        (⟨.symbol .leftParen, opening⟩ :: ts) rest
  | noItems (rest : List Lexeme) : Derives (.items []) 0 rest rest
  | items {e : Expr} {es : List Expr} {m n : Nat} {ts us rest : List Lexeme}
      (hfirst : Derives (.chain .sum e) m ts us) (hmore : Derives (.moreItems es) n us rest) :
      Derives (.items (e :: es)) (max m n) ts rest
  | noMore (rest : List Lexeme) : Derives (.moreItems []) 0 rest rest
  | more {e : Expr} {es : List Expr} {m n : Nat} {ts us rest : List Lexeme} (comma : Span)
      (hitem : Derives (.chain .sum e) m ts us) (hmore : Derives (.moreItems es) n us rest) :
      Derives (.moreItems (e :: es)) (max m n) (⟨.symbol .comma, comma⟩ :: ts) rest

inductive IsStatement : Statement → Nat → List Lexeme → List Lexeme → Prop where
  | assign {e : Expr} {n : Nat} {ts rest : List Lexeme} (name : String) (nameSpan equals : Span)
      (h : Derives (.chain .sum e) n ts rest) :
      IsStatement (.assign name nameSpan e) n
        (⟨.name name, nameSpan⟩ :: ⟨.symbol .equals, equals⟩ :: ts) rest
  | expression {e : Expr} {n : Nat} {ts rest : List Lexeme}
      (h : Derives (.chain .sum e) n ts rest) : IsStatement (.expression e) n ts rest

/-- The tokens are a program, with so many nesting levels in its deepest statement. -/
inductive IsProgram : List Statement → Nat → List Lexeme → Prop where
  | nil : IsProgram [] 0 []
  | separator {program : List Statement} {n : Nat} {l : Lexeme} {ts : List Lexeme}
      (hl : l.token.isSeparator = true) (h : IsProgram program n ts) :
      IsProgram program n (l :: ts)
  | last {s : Statement} {n : Nat} {ts : List Lexeme} (h : IsStatement s n ts []) :
      IsProgram [s] n ts
  | cons {s : Statement} {program : List Statement} {m n : Nat} {l : Lexeme} {ts us : List Lexeme}
      (hfirst : IsStatement s m ts (l :: us)) (hl : l.token.isSeparator = true)
      (hmore : IsProgram program n us) : IsProgram (s :: program) (max m n) ts

section Derived

variable {φ : Phrase} {k : Chain} {left e : Expr} {es : List Expr} {n : Nat}
  {ts rest : List Lexeme}

theorem Derives.suffix (h : Derives φ n ts rest) : rest <:+ ts := by
  induction h with
  | noLink | noItems | noMore => exact List.suffix_refl _
  | unsigned _ ih | base _ ih => exact ih
  | chain _ _ ih ih' | items _ _ ih ih' => exact ih'.trans ih
  | number | text | reference => exact List.suffix_cons _ _
  | sign _ _ ih => exact ih.trans (List.suffix_cons _ _)
  | link _ _ _ ih ih' | more _ _ _ ih ih' => exact (ih'.trans ih).trans (List.suffix_cons _ _)
  | raised _ _ ih ih' => exact ih'.trans ((List.suffix_cons _ _).trans ih)
  | call _ _ _ _ _ ih =>
    exact ((List.suffix_cons _ _).trans ih).trans
      ((List.suffix_cons _ _).trans (List.suffix_cons _ _))
  | vector _ _ _ ih | group _ _ _ ih =>
    exact ((List.suffix_cons _ _).trans ih).trans (List.suffix_cons _ _)

theorem Derives.sum_of_unary (h : Derives (.unary e) n ts rest) :
    Derives (.chain .sum e) n ts rest := by
  have hproduct : Derives (.chain .product e) (max n 0) ts rest :=
    .chain (k := .product) h (.noLink _ _ _)
  have hsum : Derives (.chain .sum e) (max (max n 0) 0) ts rest :=
    .chain (k := .sum) hproduct (.noLink _ _ _)
  rw [Nat.max_zero, Nat.max_zero] at hsum
  exact hsum

def starts : Token → Bool
  | .number _ => true
  | .text _ => true
  | .name _ => true
  | .symbol .plus => true
  | .symbol .minus => true
  | .symbol .leftParen => true
  | .symbol .leftBracket => true
  | _ => false

theorem isSeparator_of_starts {t : Token} (h : starts t = true) : t.isSeparator = false := by
  cases t with
  | symbol s => cases s <;> first | rfl | cases h
  | newline => cases h
  | _ => rfl

def Phrase.IsExpression : Phrase → Prop
  | chain _ _ => True
  | links _ _ _ => False
  | unary _ => True
  | power _ => True
  | primary _ => True
  | items _ => False
  | moreItems _ => False

private theorem Chain.isExpression_operand (k : Chain) (e : Expr) : (k.operand e).IsExpression := by
  cases k <;> trivial

theorem starts_of_sign {t : Token} {sign : Sign} (h : sign? t = some sign) : starts t = true := by
  cases t with
  | symbol s => cases s <;> first | rfl | cases h
  | _ => cases h

theorem Derives.exists_starts (h : Derives φ n ts rest) (hφ : φ.IsExpression) :
    ∃ l us, ts = l :: us ∧ starts l.token = true := by
  induction h with
  | @chain k first _ _ _ _ _ _ _ _ ih => exact ih (k.isExpression_operand first)
  | sign hl => exact ⟨_, _, rfl, starts_of_sign hl⟩
  | unsigned _ ih | base _ ih => exact ih trivial
  | raised _ _ ih => exact ih trivial
  | number | text | reference | call | vector | group => exact ⟨_, _, rfl, rfl⟩
  | noLink | link | noItems | items | noMore | more => exact hφ.elim

theorem Derives.exists_unsigned (h : Derives (.power e) n ts rest) :
    ∃ l us, ts = l :: us ∧ sign? l.token = none := by
  have hprimary {e : Expr} {n : Nat} {ts rest : List Lexeme} (h : Derives (.primary e) n ts rest) :
      ∃ l us, ts = l :: us ∧ sign? l.token = none := by
    cases h <;> exact ⟨_, _, rfl, rfl⟩
  cases h with
  | base h => exact hprimary h
  | raised h => exact hprimary h

def Chain.continuations : Chain → List Symbol
  | sum => [.plus, .minus, .star, .slash, .caret, .leftParen]
  | product => [.star, .slash, .caret, .leftParen]

/-- The symbols that can continue a phrase where it could end as well. -/
def Phrase.continuations : Phrase → List Symbol
  | chain k _ => k.continuations
  | links k _ _ => k.continuations
  | unary _ => [.caret, .leftParen]
  | power _ => [.caret, .leftParen]
  | primary _ => [.leftParen]
  | items _ => .comma :: Chain.sum.continuations
  | moreItems _ => .comma :: Chain.sum.continuations

private theorem Phrase.continuations_subset (φ : Phrase) :
    φ.continuations ⊆ .comma :: Chain.sum.continuations := by
  have hchain (k : Chain) : k.continuations ⊆ .comma :: Chain.sum.continuations := by
    cases k <;> decide
  have hsuffix : [.caret, .leftParen] ⊆ Symbol.comma :: Chain.sum.continuations := by decide
  cases φ with
  | chain k | links k => exact hchain k
  | unary | power => exact hsuffix
  | primary => exact fun s hs => hsuffix (List.mem_cons_of_mem _ hs)
  | items | moreItems => exact List.Subset.refl _

private theorem Chain.not_mem_continuations {s : Symbol} {operator : Operator}
    (h : k.operator? (.symbol s) = some operator) (e : Expr) :
    s ∉ (k.operand e).continuations := by
  cases k with
  | sum =>
    change s ∉ Chain.product.continuations
    cases s <;> first | decide | cases h
  | product =>
    change s ∉ [.caret, .leftParen]
    cases s <;> first | decide | cases h

def Stops (φ : Phrase) (rest : List Lexeme) : Prop :=
  Next (fun t => ∀ s ∈ φ.continuations, t ≠ .symbol s) rest

theorem Stops.mono {ψ : Phrase} (h : Stops φ rest)
    (hsubset : ψ.continuations ⊆ φ.continuations) : Stops ψ rest :=
  Next.mono h fun _ ht s hs => ht s (hsubset hs)

theorem Stops.ne (h : Stops φ rest) {s : Symbol} (hs : s ∈ φ.continuations) :
    Next (· ≠ .symbol s) rest :=
  Next.mono h fun _ ht => ht s hs

theorem stops_closing {s : Symbol} (h : s ∉ Symbol.comma :: Chain.sum.continuations) (span : Span)
    (rest : List Lexeme) : Stops φ (⟨.symbol s, span⟩ :: rest) := by
  refine .cons ?_ rest
  rintro s' hs' heq
  obtain rfl : s = s' := Token.symbol.inj heq
  exact h (φ.continuations_subset hs')

theorem stops_of_separators (h : Next (·.isSeparator = true) rest) : Stops φ rest := by
  refine Next.mono h fun t ht s hs heq => ?_
  have hmem := φ.continuations_subset hs
  rw [heq] at ht
  cases s <;> first | cases ht; done | exact absurd hmem (by decide)

theorem stops_symbol {s : Symbol} (h : s ∉ φ.continuations) (span : Span) (rest : List Lexeme) :
    Stops φ (⟨.symbol s, span⟩ :: rest) := by
  refine .cons ?_ rest
  rintro s' hs' heq
  obtain rfl : s = s' := Token.symbol.inj heq
  exact h hs'

theorem Stops.operator?_eq_none (h : Stops (.chain k e) rest) :
    Next (k.operator? · = none) rest := by
  refine Next.mono h fun t ht => ?_
  cases t with
  | symbol s =>
    have hs (s' : Symbol) (hs' : s' ∈ k.continuations) : s ≠ s' :=
      fun heq => ht s' hs' (congrArg Token.symbol heq)
    cases k <;> cases s <;> first | rfl | exact absurd rfl (hs _ (by decide))
  | _ => cases k <;> rfl

private theorem Stops.operand (h : Stops (.chain k e) rest) (first : Expr) :
    Stops (k.operand first) rest := by
  refine h.mono ?_
  cases k with
  | sum => exact (by decide : Chain.product.continuations ⊆ Chain.sum.continuations)
  | product => exact (by decide : [.caret, .leftParen] ⊆ Chain.product.continuations)

theorem Derives.stops_operand (h : Derives (.links k left e) n ts rest)
    (hrest : Stops (.chain k e) rest) (operand : Expr) : Stops (k.operand operand) ts := by
  cases h with
  | noLink => exact hrest.operand operand
  | link hl =>
    refine .cons ?_ _
    rintro s hs heq
    rw [heq] at hl
    exact Chain.not_mem_continuations hl operand hs

theorem Derives.stops_item (h : Derives (.moreItems es) n ts rest)
    (hrest : Stops (.moreItems es) rest) (e : Expr) : Stops (.chain .sum e) ts := by
  cases h with
  | noMore => exact hrest.mono (List.subset_cons_self _ _)
  | more comma => exact stops_symbol (by simp [Phrase.continuations, Chain.continuations]) comma _

theorem IsStatement.suffix {s : Statement} (h : IsStatement s n ts rest) : rest <:+ ts := by
  cases h with
  | assign _ _ _ h => exact h.suffix.trans ((List.suffix_cons _ _).trans (List.suffix_cons _ _))
  | expression h => exact h.suffix

theorem IsStatement.exists_starts {s : Statement} (h : IsStatement s n ts rest) :
    ∃ l us, ts = l :: us ∧ starts l.token = true := by
  cases h with
  | assign => exact ⟨_, _, rfl, rfl⟩
  | expression h => exact h.exists_starts trivial

end Derived

end DiagramScope.Script.Grammar
