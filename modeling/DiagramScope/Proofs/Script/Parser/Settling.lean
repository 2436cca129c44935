import DiagramScope.Proofs.Script.Parser.Discipline

/-!
Reading that depends only on the levels that are left. An outcome settles on a value with a number
of levels if it is done with the value where they are left, and halts for lack of levels where they
are not. Main statements: each rule of the grammar settles if the rules that it is made of do, with
the levels that the greatest of them takes, or with one more where it enters a level.
-/

set_option autoImplicit false
set_option relaxedAutoImplicit false

namespace DiagramScope.Script

namespace Outcome

variable {α β : Type} {o : Outcome α} {level m n : Nat} {a : α} {b : β} {c c' : Cursor}

private theorem bind_assoc {γ : Type} (o : Outcome α) (f : α → Cursor → Outcome β)
    (g : β → Cursor → Outcome γ) : (o.bind f).bind g = o.bind fun a c => (f a c).bind g := by
  cases o <;> rfl

/-- An outcome that depends only on whether so many more levels are left: it is done with a value if
they are, and else halted for lack of them. -/
structure Settles (o : Outcome α) (level n : Nat) (a : α) (c : Cursor) : Prop where
  done : level + n ≤ maxNesting → o = .done a c
  halted : maxNesting < level + n → ∃ c', o = .halted .nesting c'

theorem settles_done (h : level ≤ maxNesting) (a : α) (c : Cursor) :
    (done a c).Settles level 0 a c :=
  ⟨fun _ => rfl, fun hn => absurd hn (Nat.not_lt_of_le h)⟩

private theorem settles_halted (h : maxNesting ≤ level) (n : Nat) (a : α) (c c' : Cursor) :
    (halted .nesting c').Settles level (n + 1) a c :=
  ⟨fun hfits => by omega, fun _ => ⟨c', rfl⟩⟩

namespace Settles

/-- Levels that are needed one level deeper. -/
theorem deeper (h : o.Settles (level + 1) n a c) : o.Settles level (n + 1) a c :=
  ⟨fun hfits => h.done (by omega), fun hn => h.halted (by omega)⟩

theorem commit (h : o.Settles level n a c) : o.commit.Settles level n a c := by
  refine ⟨fun hfits => by rw [h.done hfits]; rfl, fun hn => ?_⟩
  obtain ⟨c₁, hc₁⟩ := h.halted hn
  exact ⟨c₁, by rw [hc₁]; rfl⟩

/-- Of two outcomes one after the other, the first that lacks levels halts. -/
theorem bind (h : o.Settles level m a c) {f : α → Cursor → Outcome β}
    (hf : (f a c).Settles level n b c') : (o.bind f).Settles level (max m n) b c' := by
  refine ⟨fun hfits => ?_, fun hn => ?_⟩
  · rw [h.done (by omega)]
    exact hf.done (by omega)
  · by_cases hm : level + m ≤ maxNesting
    · rw [h.done hm]
      exact hf.halted (by omega)
    · obtain ⟨c₁, hc₁⟩ := h.halted (Nat.lt_of_not_le hm)
      exact ⟨c₁, by rw [hc₁]; rfl⟩

private theorem bind_done (h : o.Settles level n a c) {f : α → Cursor → Outcome β}
    (hf : f a c = .done b c') : (o.bind f).Settles level n b c' := by
  refine ⟨fun hfits => ?_, fun hn => ?_⟩
  · rw [h.done hfits]
    exact hf
  · obtain ⟨c₁, hc₁⟩ := h.halted hn
    exact ⟨c₁, by rw [hc₁]; rfl⟩

theorem map (h : o.Settles level n a c) (f : α → β) : (o.map f).Settles level n (f a) c :=
  h.bind_done rfl

private theorem relevel (h : o.Settles level n a c) (f : Nat → Nat) :
    (o.relevel f).Settles level n a { c with level := f c.level } := by
  refine ⟨fun hfits => by rw [h.done hfits]; rfl, fun hn => ?_⟩
  obtain ⟨c₁, hc₁⟩ := h.halted hn
  exact ⟨_, by rw [hc₁]; rfl⟩

theorem eq (h : o.Settles level m a c) {a' : α} {c' : Cursor} (h' : o.Settles level n a' c')
    (hfits : level + m ≤ maxNesting) : level + n ≤ maxNesting ∧ a = a' ∧ c = c' := by
  have hdone := h.done hfits
  by_cases hn : level + n ≤ maxNesting
  · obtain ⟨rfl, rfl⟩ := Outcome.done.inj (hdone.symm.trans (h'.done hn))
    exact ⟨hn, rfl, rfl⟩
  · obtain ⟨c₁, hc₁⟩ := h'.halted (Nat.lt_of_not_le hn)
    cases hdone.symm.trans hc₁

end Settles

end Outcome

namespace Parser

open Outcome (Settles settles_done settles_halted)

/-- Whether a parser of signed expressions uses all levels that are left, from a level on. -/
def Ample (unary : Parser Expr) (start : Nat) : Prop :=
  ∀ level, start ≤ level →
    ∃ budget, maxNesting ≤ level + budget ∧ ∀ ls, unary ⟨ls, level⟩ = unaryWithin budget ⟨ls, level⟩

theorem ample_unary (start : Nat) : Ample unary start :=
  fun level _ => ⟨maxNesting - level, by omega, fun _ => rfl⟩

private theorem ample_unaryWithin {budget start : Nat} (h : maxNesting ≤ start + budget) :
    Ample (unaryWithin budget) start :=
  fun level hlevel => ⟨budget, by omega, fun _ => rfl⟩

theorem Ample.mono {unary : Parser Expr} {start start' : Nat} (h : Ample unary start)
    (hle : start ≤ start') : Ample unary start' :=
  fun level hlevel => h level (Nat.le_trans hle hlevel)

theorem Ample.exists_nested {unary : Parser Expr} {level : Nat} (h : Ample unary level) :
    ∃ inner, Ample inner (level + 1) ∧
      ∀ ts, unary ⟨ts, level⟩ = nested (signed inner) ⟨ts, level⟩ := by
  obtain ⟨budget, hbudget, hunary⟩ := h level (Nat.le_refl level)
  refine ⟨unaryWithin (budget - 1), ample_unaryWithin (by omega), fun ts => ?_⟩
  rw [hunary]
  cases budget with
  | zero =>
    have hfull : maxNesting ≤ level := hbudget
    rw [nested_apply, if_pos hfull]
    rfl
  | succ budget => rfl

theorem accept_of_eq_some {β : Type} {select : Token → Option β} {l : Lexeme} {b : β}
    (h : select l.token = some b) (rest : List Lexeme) (level : Nat) :
    accept select ⟨l :: rest, level⟩ = .done (some (b, l.span)) ⟨rest, level⟩ := by
  unfold accept
  simp only [h]

theorem accept_of_eq_none {β : Type} {select : Token → Option β} {l : Lexeme}
    (h : select l.token = none) (rest : List Lexeme) (level : Nat) :
    accept select ⟨l :: rest, level⟩ = .done none ⟨l :: rest, level⟩ := by
  unfold accept
  simp only [h]

theorem acceptSymbol_self (s : Symbol) (span : Span) (rest : List Lexeme) (level : Nat) :
    acceptSymbol s ⟨⟨.symbol s, span⟩ :: rest, level⟩ = .done (some span) ⟨rest, level⟩ := by
  simp [acceptSymbol]

theorem acceptSymbol_of_ne {s : Symbol} {rest : List Lexeme} (h : Next (· ≠ .symbol s) rest)
    (level : Nat) :
    acceptSymbol s ⟨rest, level⟩ = .done none ⟨rest, level⟩ := by
  unfold acceptSymbol
  cases rest with
  | nil => rfl
  | cons l more =>
    have hl := h l more rfl
    obtain ⟨t, span⟩ := l
    cases t with
    | symbol s' =>
      have hne : s' ≠ s := fun hs => hl (congrArg Token.symbol hs)
      simp [hne]
    | _ => rfl

section Chain

variable {operator? : Token → Option Operator} {operand : Parser Expr} {bound level start m n : Nat}
  {first left right e : Expr} {ts us rest : List Lexeme}

theorem chainFrom_of_not_operator (h : Next (operator? · = none) rest) :
    chainFrom operator? operand bound e ⟨rest, level⟩ = .done e ⟨rest, level⟩ := by
  cases bound with
  | zero => rfl
  | succ bound =>
    rw [chainFrom_succ]
    cases rest with
    | nil => rfl
    | cons l more => simp only [h l more rfl]

theorem settles_chain (hfirst : (operand ⟨ts, level⟩).Settles level m first ⟨us, level⟩)
    (hlinks : ((chainFrom operator? operand us.length first ⟨us, level⟩).bind
      fun e c => .done e { c with level := level }).Settles level n e ⟨rest, level⟩) :
    (chain operator? operand ⟨ts, level⟩).Settles level (max m n) e ⟨rest, level⟩ := by
  rw [chain_apply]
  exact hfirst.bind hlinks

theorem settles_noLink (hrest : Next (operator? · = none) rest) (hlevel : level ≤ maxNesting) :
    ((chainFrom operator? operand bound e ⟨rest, level⟩).bind
      fun e c => .done e { c with level := start }).Settles level 0 e ⟨rest, start⟩ := by
  rw [chainFrom_of_not_operator hrest]
  exact settles_done hlevel e ⟨rest, start⟩

theorem settles_link {l : Lexeme} {operator : Operator} (hl : operator? l.token = some operator)
    (hright : level < maxNesting →
      (operand ⟨ts, level + 1⟩).Settles (level + 1) m right ⟨us, level + 1⟩)
    (hlinks : level < maxNesting →
      ((chainFrom operator? operand bound (.joined operator left right) ⟨us, level + 1⟩).bind
        fun e c => .done e { c with level := start }).Settles (level + 1) n e ⟨rest, start⟩) :
    ((chainFrom operator? operand (bound + 1) left ⟨l :: ts, level⟩).bind
      fun e c => .done e { c with level := start }).Settles level (max m n + 1) e
        ⟨rest, start⟩ := by
  rw [chainFrom_succ]
  simp only [hl]
  by_cases hroom : maxNesting ≤ level
  · rw [if_pos hroom]
    exact settles_halted hroom _ _ _ _
  · rw [if_neg hroom]
    have hlevel : level < maxNesting := Nat.lt_of_not_le hroom
    rw [Outcome.bind_assoc]
    exact ((hright hlevel).commit.bind (hlinks hlevel)).deeper

end Chain

theorem moreItems_of_not_comma {item : Parser Expr} {rest : List Lexeme}
    (h : Next (· ≠ .symbol .comma) rest) (level bound : Nat) :
    moreItems item bound ⟨rest, level⟩ = .done [] ⟨rest, level⟩ := by
  cases bound with
  | zero => rfl
  | succ bound => simp only [moreItems, acceptSymbol_of_ne h]

theorem items_nil (item : Parser Expr) (close : Symbol) (expected : Expected) (span : Span)
    (rest : List Lexeme) (level : Nat) :
    items item close expected ⟨⟨.symbol close, span⟩ :: rest, level⟩ =
      .done ([], span) ⟨rest, level⟩ := by
  change (acceptSymbol close _).bind _ = _
  rw [acceptSymbol_self]
  rfl

theorem items_of_not_closed {item : Parser Expr} {close : Symbol} {c : Cursor}
    (hnone : acceptSymbol close c = .done none c) (expected : Expected) :
    items item close expected c =
      (item c).bind fun e c₁ => (moreItems item c₁.rest.length c₁).bind fun es c₂ =>
        (expectSymbol close expected c₂).bind fun span c₃ => .done (e :: es, span) c₃ := by
  change (acceptSymbol close c).bind _ = _
  rw [hnone]
  rfl

theorem expectSymbol_self (s : Symbol) (expected : Expected) (span : Span) (rest : List Lexeme)
    (level : Nat) :
    expectSymbol s expected ⟨⟨.symbol s, span⟩ :: rest, level⟩ = .done span ⟨rest, level⟩ := by
  change (acceptSymbol s _).bind _ = _
  rw [acceptSymbol_self]
  rfl

section Rules

variable {unary : Parser Expr} {level m n : Nat} {e base exponent : Expr} {es : List Expr}
  {ts us rest : List Lexeme}

theorem settles_sign {l : Lexeme} {sign : Sign} (hl : sign? l.token = some sign)
    (h : (unary ⟨ts, level⟩).Settles level n e ⟨rest, level⟩) :
    (signed unary ⟨l :: ts, level⟩).Settles level n (.signed sign e (l.span.union e.span))
      ⟨rest, level⟩ := by
  change ((accept sign? ⟨l :: ts, level⟩).bind _).Settles _ _ _ _
  rw [accept_of_eq_some hl]
  exact h.commit.bind_done rfl

theorem settles_unsigned {l : Lexeme} (hl : sign? l.token = none)
    (h : (power unary ⟨l :: ts, level⟩).Settles level n e ⟨rest, level⟩) :
    (signed unary ⟨l :: ts, level⟩).Settles level n e ⟨rest, level⟩ := by
  change ((accept sign? ⟨l :: ts, level⟩).bind _).Settles _ _ _ _
  rw [accept_of_eq_none hl]
  exact h

theorem settles_base (hrest : Next (· ≠ .symbol .caret) rest)
    (h : (primary unary ⟨ts, level⟩).Settles level n e ⟨rest, level⟩) :
    (power unary ⟨ts, level⟩).Settles level n e ⟨rest, level⟩ := by
  change ((primary unary ⟨ts, level⟩).bind _).Settles _ _ _ _
  refine h.bind_done ?_
  change (acceptSymbol .caret ⟨rest, level⟩).bind _ = _
  rw [acceptSymbol_of_ne hrest]
  rfl

theorem settles_raised {caret : Span}
    (hbase : (primary unary ⟨ts, level⟩).Settles level m base
      ⟨⟨.symbol .caret, caret⟩ :: us, level⟩)
    (hexponent : (unary ⟨us, level⟩).Settles level n exponent ⟨rest, level⟩) :
    (power unary ⟨ts, level⟩).Settles level (max m n) (.joined .power base exponent)
      ⟨rest, level⟩ := by
  change ((primary unary ⟨ts, level⟩).bind _).Settles _ _ _ _
  refine hbase.bind ?_
  change ((acceptSymbol .caret ⟨⟨.symbol .caret, caret⟩ :: us, level⟩).bind _).Settles _ _ _ _
  rw [acceptSymbol_self]
  exact hexponent.commit.bind_done rfl

theorem primary_name (unary : Parser Expr) (name : String) (nameSpan : Span) (ts : List Lexeme)
    (level : Nat) :
    primary unary ⟨⟨.name name, nameSpan⟩ :: ts, level⟩ =
      (acceptSymbol .leftParen ⟨ts, level⟩).bind fun opening c =>
        match opening with
        | none => .done (.reference name nameSpan) c
        | some _ =>
          (items (expression unary) .rightParen .closeParen c).commit.bind fun found c =>
            .done (.call name nameSpan found.1 (nameSpan.union found.2)) c := by
  change (acceptSymbol .leftParen ⟨ts, level⟩).bind _ = _
  congr
  funext opening
  cases opening <;> rfl

theorem settles_reference (hrest : Next (· ≠ .symbol .leftParen) rest) (hlevel : level ≤ maxNesting)
    (name : String) (span : Span) :
    (primary unary ⟨⟨.name name, span⟩ :: rest, level⟩).Settles level 0 (.reference name span)
      ⟨rest, level⟩ := by
  rw [primary_name, acceptSymbol_of_ne hrest]
  exact settles_done hlevel _ _

theorem settles_call {close : Span}
    (h : (items (expression unary) .rightParen .closeParen ⟨ts, level⟩).Settles level n (es, close)
      ⟨rest, level⟩) (name : String) (nameSpan opening : Span) :
    (primary unary
      ⟨⟨.name name, nameSpan⟩ :: ⟨.symbol .leftParen, opening⟩ :: ts, level⟩).Settles level n
        (.call name nameSpan es (nameSpan.union close)) ⟨rest, level⟩ := by
  rw [primary_name, acceptSymbol_self]
  exact h.commit.bind_done rfl

theorem settles_vector {close : Span}
    (h : (items (expression unary) .rightBracket .closeBracket ⟨ts, level⟩).Settles level n
      (es, close) ⟨rest, level⟩) (opening : Span) :
    (primary unary ⟨⟨.symbol .leftBracket, opening⟩ :: ts, level⟩).Settles level n
      (.vector es (opening.union close)) ⟨rest, level⟩ :=
  h.commit.bind_done rfl

theorem settles_group {close : Span}
    (h : (expression unary ⟨ts, level⟩).Settles level n e
      ⟨⟨.symbol .rightParen, close⟩ :: rest, level⟩) (opening : Span) :
    (primary unary ⟨⟨.symbol .leftParen, opening⟩ :: ts, level⟩).Settles level n
      (e.withSpan (opening.union close)) ⟨rest, level⟩ := by
  refine h.commit.bind_done ?_
  change (expectSymbol .rightParen .closeParen _).commit.bind _ = _
  rw [expectSymbol_self]
  rfl

theorem settles_items {close : Symbol} {span : Span} (hclose : Next (· ≠ .symbol close) ts)
    (hfirst : (expression unary ⟨ts, level⟩).Settles level m e ⟨us, level⟩)
    (hmore : (moreItems (expression unary) us.length ⟨us, level⟩).Settles level n es
      ⟨⟨.symbol close, span⟩ :: rest, level⟩) (expected : Expected) :
    (items (expression unary) close expected ⟨ts, level⟩).Settles level (max m n) (e :: es, span)
      ⟨rest, level⟩ := by
  rw [items_of_not_closed (acceptSymbol_of_ne hclose level)]
  refine hfirst.bind (hmore.bind_done ?_)
  rw [expectSymbol_self]
  rfl

theorem settles_more {bound : Nat}
    (hitem : (expression unary ⟨ts, level⟩).Settles level m e ⟨us, level⟩)
    (hmore : (moreItems (expression unary) bound ⟨us, level⟩).Settles level n es ⟨rest, level⟩)
    (comma : Span) :
    (moreItems (expression unary) (bound + 1) ⟨⟨.symbol .comma, comma⟩ :: ts, level⟩).Settles level
      (max m n) (e :: es) ⟨rest, level⟩ := by
  -- an item that settles is never refused, so the comma is not given back
  have hsame : moreItems (expression unary) (bound + 1) ⟨⟨.symbol .comma, comma⟩ :: ts, level⟩ =
      (expression unary ⟨ts, level⟩).bind fun item c =>
        (moreItems (expression unary) bound c).map (item :: ·) := by
    simp only [moreItems, acceptSymbol_self]
    by_cases hm : level + m ≤ maxNesting
    · rw [hitem.done hm]
      rfl
    · obtain ⟨c, hc⟩ := hitem.halted (Nat.lt_of_not_le hm)
      rw [hc]
      rfl
  rw [hsame]
  exact hitem.bind (hmore.map (e :: ·))

end Rules

theorem settles_nested {p : Parser Expr} {level n : Nat} {e : Expr} {ts rest : List Lexeme}
    (h : level < maxNesting → (p ⟨ts, level + 1⟩).Settles (level + 1) n e ⟨rest, level + 1⟩) :
    (nested p ⟨ts, level⟩).Settles level (n + 1) e ⟨rest, level⟩ := by
  rw [nested_apply]
  by_cases hroom : maxNesting ≤ level
  · rw [if_pos hroom]
    exact settles_halted hroom _ _ _ _
  · rw [if_neg hroom]
    exact ((h (Nat.lt_of_not_le hroom)).relevel (· - 1)).deeper

end Parser

end DiagramScope.Script
