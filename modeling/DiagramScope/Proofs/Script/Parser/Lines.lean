import DiagramScope.Proofs.Script.Parser.Discipline
import DiagramScope.Proofs.Script.Shift

/-!
Parsing goes statement by statement: no rule of the grammar reads past a separator, and none depends
on where its tokens stand in the text. Main statement: the statements of two runs of tokens, of
which the second starts with a separator, are those of the first and those of the second.
-/

set_option autoImplicit false
set_option relaxedAutoImplicit false

namespace DiagramScope.Script

private theorem Token.isSeparator_iff {t : Token} :
    t.isSeparator = true ↔ t = .symbol .semicolon ∨ t = .newline := by
  constructor
  · intro h
    cases t with
    | symbol s => cases s <;> first | exact Or.inl rfl | cases h
    | newline => exact Or.inr rfl
    | _ => cases h
  · rintro (rfl | rfl) <;> rfl

variable (bytes : Nat) (tail : List Lexeme)

def Cursor.moved (c : Cursor) : Cursor := ⟨c.rest.map (·.shift bytes) ++ tail, c.level⟩

def Outcome.moved {α β : Type} (f : α → β) : Outcome α → Outcome β
  | done a c => done (f a) (c.moved bytes tail)
  | refused cause c => refused cause (c.moved bytes tail)
  | halted cause c => halted cause (c.moved bytes tail)

namespace Outcome

variable {bytes : Nat} {tail : List Lexeme} {α β γ δ : Type}

private theorem moved_commit (f : α → β) (o : Outcome α) :
    o.commit.moved bytes tail f = (o.moved bytes tail f).commit := by
  cases o <;> rfl

private theorem moved_bind {f : α → β} {g : γ → δ} {p : α → Cursor → Outcome γ}
    {q : β → Cursor → Outcome δ}
    (h : ∀ a c, q (f a) (c.moved bytes tail) = (p a c).moved bytes tail g) (o : Outcome α) :
    (o.bind p).moved bytes tail g = (o.moved bytes tail f).bind q := by
  cases o with
  | done a c => exact (h a c).symm
  | refused cause c => rfl
  | halted cause c => rfl

end Outcome

namespace Parser

variable {α β γ δ : Type}

/-- On moved tokens `q` does what `p` does on the tokens alone, with the value changed by `f`. -/
def Moves (f : α → β) (p : Parser α) (q : Parser β) : Prop :=
  ∀ c : Cursor, q (c.moved bytes tail) = (p c).moved bytes tail f

def Separated : Prop := ∀ l rest, tail = l :: rest → l.token.isSeparator = true

variable {bytes tail}

private theorem Moves.pure {f : α → β} {a : α} {b : β} (h : f a = b) :
    Moves bytes tail f (Pure.pure a) (Pure.pure b) := fun _ => h ▸ rfl

private theorem Moves.bind {f : α → β} {g : γ → δ} {p : Parser α} {q : Parser β} {r : α → Parser γ}
    {s : β → Parser δ} (h : Moves bytes tail f p q)
    (hbind : ∀ a, Moves bytes tail g (r a) (s (f a))) :
    Moves bytes tail g (p >>= r) (q >>= s) := by
  intro c
  change (q _).bind s = ((p c).bind r).moved bytes tail g
  rw [h c]
  exact (Outcome.moved_bind (fun a c => hbind a c) (p c)).symm

private theorem Moves.commit {f : α → β} {p : Parser α} {q : Parser β}
    (h : Moves bytes tail f p q) : Moves bytes tail f (commit p) (commit q) := by
  intro c
  simp only [Parser.commit, h c, Outcome.moved_commit]

private theorem Moves.map_apply {f : α → β} {g : γ → δ} {p : Parser α} {q : Parser β} {u : α → γ}
    {v : β → δ} (h : Moves bytes tail f p q) (huv : ∀ a, v (f a) = g (u a)) (c : Cursor) :
    (q (c.moved bytes tail)).map v = ((p c).map u).moved bytes tail g := by
  rw [h c]
  exact (Outcome.moved_bind (fun a _ => by rw [huv]; rfl) (p c)).symm

private theorem moves_refused (f : α → β) (cause : Cause) :
    Moves bytes tail f (fun c => .refused cause c) (fun c => .refused cause c) := fun _ => rfl

private theorem moves_halted (f : α → β) (cause : Cause) :
    Moves bytes tail f (fun c => .halted cause c) (fun c => .halted cause c) := fun _ => rfl

private theorem Moves.nested {f : α → β} {p : Parser α} {q : Parser β}
    (h : Moves bytes tail f p q) : Moves bytes tail f (nested p) (nested q) := by
  intro c
  rw [nested_apply p]
  refine (nested_apply q _).trans ?_
  by_cases hlevel : maxNesting ≤ c.level
  · rw [if_pos hlevel]
    exact if_pos hlevel
  · rw [if_neg hlevel]
    refine (if_neg hlevel).trans ?_
    change (q (Cursor.moved bytes tail ⟨c.rest, c.level + 1⟩)).relevel (· - 1) = _
    rw [h ⟨c.rest, c.level + 1⟩]
    cases p ⟨c.rest, c.level + 1⟩ <;> rfl

section Tokens

variable (hsep : Separated tail)

def shiftFound (bytes : Nat) (found : β × Span) : β × Span := (found.1, found.2.shift bytes)

include hsep in
private theorem moves_accept {select : Token → Option β}
    (hselect : ∀ t : Token, t.isSeparator = true → select t = none) :
    Moves bytes tail (Option.map (shiftFound bytes)) (accept select) (accept select) := by
  intro ⟨rest, level⟩
  cases rest with
  | nil =>
    cases htail : tail with
    | nil => rfl
    | cons l more =>
      have hnone := hselect l.token (hsep l more htail)
      simp [accept, Cursor.moved, Outcome.moved, hnone]
  | cons l rest =>
    simp only [accept, Cursor.moved, List.map_cons, List.cons_append, Lexeme.shift]
    cases select l.token <;> rfl

include hsep in
private theorem moves_acceptSymbol {s : Symbol} (hs : s ≠ .semicolon) :
    Moves bytes tail (Option.map (·.shift bytes)) (acceptSymbol s) (acceptSymbol s) := by
  intro ⟨rest, level⟩
  cases rest with
  | nil =>
    cases htail : tail with
    | nil => rfl
    | cons l more =>
      have hl := hsep l more htail
      obtain ⟨token, span⟩ := l
      obtain rfl | rfl := Token.isSeparator_iff.1 hl
      · simp [acceptSymbol, Cursor.moved, Outcome.moved, Ne.symm hs]
      · rfl
  | cons l rest =>
    obtain ⟨token, span⟩ := l
    cases token <;> try rfl
    next s' =>
      simp only [acceptSymbol, Cursor.moved, List.map_cons, List.cons_append, Lexeme.shift]
      split <;> rfl

include hsep in
private theorem moves_expectSymbol {s : Symbol} (hs : s ≠ .semicolon) (expected : Expected) :
    Moves bytes tail (·.shift bytes) (expectSymbol s expected) (expectSymbol s expected) := by
  apply (moves_acceptSymbol hsep hs).bind
  intro found
  cases found with
  | none => exact moves_refused _ _
  | some span => exact .pure rfl

end Tokens

section Repetition

variable (hsep : Separated tail)

/-- The number of items that are tried makes no difference if it is not below that of the tokens. -/
theorem moreItems_eq_of_le {e : Parser Expr} (he : Orderly e) {m n : Nat} {c : Cursor}
    (hm : c.rest.length ≤ m) (hn : c.rest.length ≤ n) : moreItems e m c = moreItems e n c := by
  have hempty (n : Nat) (level : Nat) : moreItems e n ⟨[], level⟩ = .done [] ⟨[], level⟩ := by
    cases n <;> rfl
  induction m generalizing n c with
  | zero =>
    obtain ⟨rest, level⟩ := c
    obtain rfl : rest = [] := List.length_eq_zero_iff.1 (Nat.le_zero.1 hm)
    rw [hempty, hempty]
  | succ m ih =>
    cases n with
    | zero =>
      obtain ⟨rest, level⟩ := c
      obtain rfl : rest = [] := List.length_eq_zero_iff.1 (Nat.le_zero.1 hn)
      rw [hempty, hempty]
    | succ n =>
      simp only [moreItems]
      cases hcomma : acceptSymbol .comma c with
      | refused cause c' => rfl
      | halted cause c' => rfl
      | done found c' =>
        cases found with
        | none => rfl
        | some span =>
          have hlt := length_lt_of_acceptSymbol hcomma
          simp only
          cases hitem : e c' with
          | refused cause c'' => rfl
          | halted cause c'' => rfl
          | done item c'' =>
            have hle := he.length_le hitem
            simp only
            rw [ih (n := n) (by omega) (by omega)]

include hsep in
private theorem Moves.moreItems {e : Parser Expr} (he : Moves bytes tail (Expr.shift bytes) e e)
    (bound : Nat) :
    Moves bytes tail (List.map (Expr.shift bytes)) (moreItems e bound) (moreItems e bound) := by
  induction bound with
  | zero => exact .pure rfl
  | succ bound ih =>
    intro c
    simp only [Parser.moreItems]
    rw [moves_acceptSymbol hsep (s := .comma) (by decide) c]
    cases acceptSymbol .comma c with
    | refused cause c' => rfl
    | halted cause c' => rfl
    | done found c' =>
      cases found with
      | none => rfl
      | some span =>
        simp only [Outcome.moved, Option.map_some]
        rw [he c']
        cases e c' with
        | refused cause c'' => rfl
        | halted cause c'' => rfl
        | done item c'' =>
          exact ih.map_apply (u := (item :: ·)) (v := (item.shift bytes :: ·)) (fun _ => rfl) c''

def shiftItems (bytes : Nat) (found : List Expr × Span) : List Expr × Span :=
  (found.1.map (Expr.shift bytes), found.2.shift bytes)

include hsep in
private theorem Moves.items {e : Parser Expr} (ho : Orderly e)
    (he : Moves bytes tail (Expr.shift bytes) e e) {close : Symbol} (hclose : close ≠ .semicolon)
    (expected : Expected) :
    Moves bytes tail (shiftItems bytes) (items e close expected) (items e close expected) := by
  apply (moves_acceptSymbol hsep hclose).bind
  intro found
  cases found with
  | some span => exact .pure rfl
  | none =>
    apply he.bind
    intro first
    refine Moves.bind (f := List.map (Expr.shift bytes)) ?_ fun more => ?_
    · intro c
      have hbound : c.rest.length ≤ (c.moved bytes tail).rest.length := by
        simp [Cursor.moved]
      change Parser.moreItems e _ _ = (Parser.moreItems e c.rest.length c).moved bytes tail _
      rw [moreItems_eq_of_le ho (Nat.le_refl _) hbound]
      exact he.moreItems hsep _ c
    · exact (moves_expectSymbol hsep hclose expected).bind fun span =>
        .pure rfl

end Repetition

section Chain

variable {operator? : Token → Option Operator} {operand : Parser Expr}

theorem chainFrom_eq_of_le (ho : Orderly operand) {m n : Nat} {left : Expr} {c : Cursor}
    (hm : c.rest.length ≤ m) (hn : c.rest.length ≤ n) :
    chainFrom operator? operand m left c = chainFrom operator? operand n left c := by
  have hempty (n : Nat) (level : Nat) (left : Expr) :
      chainFrom operator? operand n left ⟨[], level⟩ = .done left ⟨[], level⟩ := by
    cases n <;> rfl
  induction m generalizing n left c with
  | zero =>
    obtain ⟨rest, level⟩ := c
    obtain rfl : rest = [] := List.length_eq_zero_iff.1 (Nat.le_zero.1 hm)
    rw [hempty, hempty]
  | succ m ih =>
    cases n with
    | zero =>
      obtain ⟨rest, level⟩ := c
      obtain rfl : rest = [] := List.length_eq_zero_iff.1 (Nat.le_zero.1 hn)
      rw [hempty, hempty]
    | succ n =>
      obtain ⟨rest, level⟩ := c
      rw [chainFrom_succ, chainFrom_succ]
      cases rest with
      | nil => rfl
      | cons l rest =>
        simp only [List.length_cons] at hm hn
        simp only
        split
        · rfl
        · split
          · rfl
          · refine Outcome.bind_congr fun right c' hright => ?_
            have hle : c'.rest.length ≤ rest.length :=
              ho.length_le (Outcome.commit_eq_done_iff.1 hright)
            exact ih (by omega) (by omega)

private theorem Moves.chainFrom (hsep : Separated tail)
    (hoperator : ∀ t : Token, t.isSeparator = true → operator? t = none)
    (hm : Moves bytes tail (Expr.shift bytes) operand operand) (bound : Nat) (left : Expr) :
    Moves bytes tail (Expr.shift bytes) (chainFrom operator? operand bound left)
      (chainFrom operator? operand bound (left.shift bytes)) := by
  induction bound generalizing left with
  | zero => exact .pure rfl
  | succ bound ih =>
    apply (moves_accept hsep hoperator).bind
    intro found
    cases found with
    | none => exact .pure rfl
    | some found =>
      refine Moves.bind (f := id) ?_ fun _ => ?_
      · intro c
        unfold descend
        by_cases hlevel : maxNesting ≤ c.level
        · rw [if_pos hlevel]
          exact if_pos hlevel
        · rw [if_neg hlevel]
          exact if_neg hlevel
      · apply hm.commit.bind
        intro right
        have h := ih (.joined found.1 left right)
        rw [Expr.shift_joined] at h
        exact h

private theorem Moves.chain (hsep : Separated tail)
    (hoperator : ∀ t : Token, t.isSeparator = true → operator? t = none) (ho : Orderly operand)
    (hm : Moves bytes tail (Expr.shift bytes) operand operand) :
    Moves bytes tail (Expr.shift bytes) (chain operator? operand) (chain operator? operand) := by
  apply hm.bind
  intro first c
  have hbound : c.rest.length ≤ (c.moved bytes tail).rest.length := by
    simp [Cursor.moved]
  simp only
  rw [chainFrom_eq_of_le ho (Nat.le_refl _) hbound, hm.chainFrom hsep hoperator _ first c]
  exact (Outcome.moved_bind (fun _ _ => rfl) _).symm

end Chain

section Grammar

variable {unary : Parser Expr} (hsep : Separated tail) (ho : Orderly unary)
  (hm : Moves bytes tail (Expr.shift bytes) unary unary)

include hsep ho hm

private theorem Moves.expression :
    Moves bytes tail (Expr.shift bytes) (expression unary) (expression unary) := by
  have hmultiplicative (t : Token) (ht : t.isSeparator = true) : multiplicative? t = none := by
    obtain rfl | rfl := Token.isSeparator_iff.1 ht <;> rfl
  have hadditive (t : Token) (ht : t.isSeparator = true) : additive? t = none := by
    obtain rfl | rfl := Token.isSeparator_iff.1 ht <;> rfl
  exact (hm.chain hsep hmultiplicative ho).chain hsep hadditive ho.chain

private theorem Moves.callOrVariable (name : String) (nameSpan : Span) :
    Moves bytes tail (Expr.shift bytes) (callOrVariable unary name nameSpan)
      (callOrVariable unary name (nameSpan.shift bytes)) := by
  apply (moves_acceptSymbol hsep (by decide)).bind
  intro found
  cases found with
  | none => exact .pure rfl
  | some span =>
    refine Moves.bind ((hm.expression hsep ho).items hsep ho.expression (by decide) _).commit
      fun found => .pure ?_
    rw [Expr.shift_call, Span.shift_union]

private theorem Moves.vector (opening : Span) :
    Moves bytes tail (Expr.shift bytes) (vector unary opening)
      (vector unary (opening.shift bytes)) := by
  refine Moves.bind ((hm.expression hsep ho).items hsep ho.expression (by decide) _).commit
    fun found => .pure ?_
  rw [Expr.shift_vector, Span.shift_union]

private theorem Moves.parenthesized (opening : Span) :
    Moves bytes tail (Expr.shift bytes) (parenthesized unary opening)
      (parenthesized unary (opening.shift bytes)) := by
  apply (hm.expression hsep ho).commit.bind
  intro inner
  refine (moves_expectSymbol hsep (by decide) _).commit.bind fun close => .pure ?_
  rw [Expr.shift_withSpan, Span.shift_union]

private theorem Moves.primary :
    Moves bytes tail (Expr.shift bytes) (primary unary) (primary unary) := by
  intro ⟨rest, level⟩
  cases rest with
  | nil =>
    cases htail : tail with
    | nil => rfl
    | cons l more =>
      have hl := hsep l more htail
      obtain ⟨token, span⟩ := l
      obtain rfl | rfl := Token.isSeparator_iff.1 hl <;> rfl
  | cons l rest =>
    obtain ⟨token, span⟩ := l
    cases token with
    | number value => rfl
    | text content => rfl
    | name name => exact hm.callOrVariable hsep ho name span ⟨rest, level⟩
    | comment content => rfl
    | blank => rfl
    | newline => rfl
    | symbol s =>
      cases s with
      | leftParen => exact hm.parenthesized hsep ho span ⟨rest, level⟩
      | leftBracket => exact hm.vector hsep ho span ⟨rest, level⟩
      | _ => rfl

private theorem Moves.power : Moves bytes tail (Expr.shift bytes) (power unary) (power unary) := by
  apply (hm.primary hsep ho).bind
  intro base
  apply (moves_acceptSymbol hsep (by decide)).bind
  intro found
  cases found with
  | none => exact .pure rfl
  | some span =>
    exact hm.commit.bind fun exponent => .pure (Expr.shift_joined bytes .power base exponent)

private theorem Moves.signed :
    Moves bytes tail (Expr.shift bytes) (signed unary) (signed unary) := by
  have hsign (t : Token) (ht : t.isSeparator = true) : sign? t = none := by
    obtain rfl | rfl := Token.isSeparator_iff.1 ht <;> rfl
  apply (moves_accept hsep hsign).bind
  intro found
  cases found with
  | none => exact hm.power hsep ho
  | some found =>
    refine hm.commit.bind fun operand => .pure ?_
    rw [Expr.shift_signed, Span.shift_union, Expr.span_shift]

end Grammar

variable (hsep : Separated tail)

include hsep

private theorem moves_unary : Moves bytes tail (Expr.shift bytes) unary unary := by
  have hwithin (budget : Nat) :
      Moves bytes tail (Expr.shift bytes) (unaryWithin budget) (unaryWithin budget) := by
    induction budget with
    | zero => exact moves_halted _ _
    | succ budget ih => exact (ih.signed hsep (orderly_unaryWithin budget)).nested
  exact fun c => hwithin (maxNesting - c.level) c

variable (bytes) in
private theorem moves_statement : Moves bytes tail (Statement.shift bytes) statement statement := by
  have hexpression : Moves bytes tail (Expr.shift bytes) (expression unary) (expression unary) :=
    (moves_unary hsep).expression hsep orderly_unary
  intro c
  by_cases hassign : ∃ name nameSpan equalsSpan rest,
      c.rest = ⟨.name name, nameSpan⟩ :: ⟨.symbol .equals, equalsSpan⟩ :: rest
  · obtain ⟨name, nameSpan, equalsSpan, rest, hrest⟩ := hassign
    obtain ⟨_, level⟩ := c
    subst hrest
    exact hexpression.commit.map_apply (u := Statement.assign name nameSpan)
      (v := Statement.assign name (nameSpan.shift bytes)) (fun _ => rfl) ⟨rest, level⟩
  · have hassign' : ¬ ∃ name nameSpan equalsSpan rest,
        (c.moved bytes tail).rest =
          ⟨.name name, nameSpan⟩ :: ⟨.symbol .equals, equalsSpan⟩ :: rest := by
      rintro ⟨name, nameSpan, equalsSpan, rest, hrest⟩
      simp only [Cursor.moved] at hrest
      rcases hc : c.rest with _ | ⟨first, _ | ⟨second, more⟩⟩
      · rw [hc] at hrest
        cases hsep _ _ hrest
      · rw [hc] at hrest
        cases hsep _ _ (List.cons.inj hrest).2
      · obtain ⟨firstToken, firstSpan⟩ := first
        obtain ⟨secondToken, secondSpan⟩ := second
        rw [hc] at hrest
        simp only [List.map_cons, List.cons_append, Lexeme.shift, List.cons.injEq,
          Lexeme.mk.injEq] at hrest
        obtain ⟨⟨rfl, -⟩, ⟨rfl, -⟩, -⟩ := hrest
        exact hassign ⟨name, firstSpan, secondSpan, more, hc⟩
    rw [statement_of_not_assignment hassign, statement_of_not_assignment hassign']
    exact hexpression.map_apply (u := Statement.expression) (v := Statement.expression)
      (fun _ => rfl) c

omit hsep

def behindSeparators (ts : List Lexeme) : List Lexeme :=
  ts.dropWhile fun l => l.token.isSeparator

theorem length_behindSeparators_le (ts : List Lexeme) :
    (behindSeparators ts).length ≤ ts.length :=
  (List.dropWhile_suffix _).length_le

/-- What follows a statement: the end, or a separator and more statements. -/
def continueWith (more : Parser (List Statement)) (s : Statement) (c : Cursor) :
    Outcome (List Statement) :=
  match c.rest with
  | [] => .done [s] c
  | l :: rest =>
    if l.token.isSeparator then (more { c with rest := rest }).map (s :: ·)
    else .halted (.missing .separator) c

theorem statements_succ (bound : Nat) (c : Cursor) :
    statements (bound + 1) c =
      if (behindSeparators c.rest).isEmpty then .done [] { c with rest := behindSeparators c.rest }
      else
        (statement { c with rest := behindSeparators c.rest }).bind
          (continueWith (statements bound)) := rfl

theorem orderly_statements (bound : Nat) : Orderly (statements bound) := by
  induction bound with
  | zero => exact .pure []
  | succ bound ih =>
    intro c
    have hdrop : c.Leads { c with rest := behindSeparators c.rest } :=
      .of_suffix (List.dropWhile_suffix _)
    rw [statements_succ]
    split
    · exact ⟨hdrop, fun _ => rfl⟩
    · have hmore (s : Statement) (c : Cursor) :
          (continueWith (statements bound) s c).Orderly c := by
        unfold continueWith
        split
        · exact ⟨.refl c, fun _ => rfl⟩
        · next l rest hrest =>
          split
          · have h := (ih { c with rest := rest }).map (s :: ·)
            have hbehind := Cursor.Leads.of_suffix (hrest ▸ List.suffix_cons l rest)
            exact ⟨hbehind.trans h.leads, h.level⟩
          · exact ⟨.refl c, fun h => absurd trivial h⟩
      have h := (orderly_statement { c with rest := behindSeparators c.rest }).bind hmore
      exact ⟨hdrop.trans h.leads, h.level⟩

private theorem continueWith_congr {p q : Parser (List Statement)} {c : Cursor}
    (h : ∀ rest, rest.length < c.rest.length →
      p { c with rest := rest } = q { c with rest := rest }) (s : Statement) :
    continueWith p s c = continueWith q s c := by
  unfold continueWith
  cases hc : c.rest with
  | nil => rfl
  | cons l rest =>
    have hlt : rest.length < c.rest.length := by simp [hc]
    simp only [h rest hlt]

private theorem statements_eq_of_lt {m n : Nat} {c : Cursor} (hm : c.rest.length < m)
    (hn : c.rest.length < n) : statements m c = statements n c := by
  induction m generalizing n c with
  | zero => cases hm
  | succ m ih =>
    cases n with
    | zero => cases hn
    | succ n =>
      rw [statements_succ, statements_succ]
      split
      · rfl
      · refine Outcome.bind_congr fun s c' hs => continueWith_congr (fun rest hrest => ?_) s
        have hdrop := length_behindSeparators_le c.rest
        have hle : c'.rest.length ≤ (behindSeparators c.rest).length :=
          orderly_statement.length_le hs
        exact ih (by simp only; omega) (by simp only; omega)

def program : Parser (List Statement) := fun c => statements (c.rest.length + 1) c

private theorem program_of_behindSeparators_nil {c : Cursor} (h : behindSeparators c.rest = []) :
    program c = .done [] { c with rest := [] } := by
  unfold program
  rw [statements_succ, h]
  rfl

theorem program_of_behindSeparators_cons {c : Cursor} {l : Lexeme} {rest : List Lexeme}
    (h : behindSeparators c.rest = l :: rest) :
    program c = (statement { c with rest := l :: rest }).bind (continueWith program) := by
  unfold program
  rw [statements_succ, h]
  simp only [List.isEmpty_cons, Bool.false_eq_true, if_false]
  have hdrop := length_behindSeparators_le c.rest
  rw [h] at hdrop
  refine Outcome.bind_congr fun s c' hs => continueWith_congr (fun rest' hrest' => ?_) s
  have hle : c'.rest.length ≤ (l :: rest).length := orderly_statement.length_le hs
  exact statements_eq_of_lt (by simp only; omega) (Nat.lt_succ_self _)

theorem program_eq_of_behindSeparators {c : Cursor} {ts : List Lexeme}
    (h : behindSeparators c.rest = behindSeparators ts) :
    program c = program { c with rest := ts } := by
  cases hts : behindSeparators ts with
  | nil =>
    rw [program_of_behindSeparators_nil (h.trans hts)]
    exact (program_of_behindSeparators_nil (c := { c with rest := ts }) hts).symm
  | cons l rest =>
    rw [program_of_behindSeparators_cons (h.trans hts)]
    exact (program_of_behindSeparators_cons (c := { c with rest := ts }) hts).symm

def andThen (bytes : Nat) (tail : List Lexeme) :
    Outcome (List Statement) → Outcome (List Statement)
  | .done first c =>
    (program { c with rest := tail }).map (first.map (Statement.shift bytes) ++ ·)
  | .refused cause c => .refused cause (c.moved bytes tail)
  | .halted cause c => .halted cause (c.moved bytes tail)

private theorem andThen_map (s : Statement) (o : Outcome (List Statement)) :
    ((andThen bytes tail o).map (s.shift bytes :: ·)) =
      andThen bytes tail (o.map (s :: ·)) := by
  cases o with
  | refused cause c => rfl
  | halted cause c => rfl
  | done first c =>
    simp only [andThen, Outcome.map, Outcome.bind]
    cases program { c with rest := tail } <;> rfl

private theorem behindSeparators_moved (ts : List Lexeme) :
    behindSeparators (ts.map (·.shift bytes) ++ tail) =
      if behindSeparators ts = [] then behindSeparators tail
      else (behindSeparators ts).map (·.shift bytes) ++ tail := by
  induction ts with
  | nil => rfl
  | cons l rest ih =>
    simp only [behindSeparators, List.map_cons, List.cons_append, List.dropWhile_cons] at ih ⊢
    have hl : (l.shift bytes).token = l.token := rfl
    rw [hl]
    split
    · exact ih
    · simp

private theorem continueWith_moved (hsep : Separated tail) (s : Statement) {c : Cursor}
    (h : ∀ rest, rest.length < c.rest.length →
      program (Cursor.moved bytes tail { c with rest := rest }) =
        andThen bytes tail (program { c with rest := rest })) :
    continueWith program (s.shift bytes) (c.moved bytes tail) =
      andThen bytes tail (continueWith program s c) := by
  obtain ⟨ts, level⟩ := c
  cases ts with
  | nil =>
    change continueWith program _ ⟨tail, level⟩ = (program ⟨tail, level⟩).map ([s.shift bytes] ++ ·)
    cases htail : tail with
    | nil => rfl
    | cons t us =>
      have ht := hsep t us htail
      have hskip : program ⟨t :: us, level⟩ = program ⟨us, level⟩ :=
        program_eq_of_behindSeparators (by simp [behindSeparators, ht])
      simp only [continueWith, ht, if_true, hskip]
      rfl
  | cons t us =>
    have hlater := h us (Nat.lt_succ_self _)
    have ht : (t.shift bytes).token = t.token := rfl
    simp only [continueWith, Cursor.moved, List.map_cons, List.cons_append, ht]
    split
    · exact (congrArg (Outcome.map (s.shift bytes :: ·)) hlater).trans (andThen_map s _)
    · rfl

variable (bytes) in
/-- The statements of tokens with a separator and more tokens behind them are those of the tokens
and then those of the rest. -/
theorem program_moved (hsep : Separated tail) (c : Cursor) :
    program (c.moved bytes tail) = andThen bytes tail (program c) := by
  obtain ⟨ts, level⟩ := c
  induction hn : ts.length using Nat.strongRecOn generalizing ts level with
  | _ n ih =>
    have hdrop : behindSeparators (Cursor.moved bytes tail ⟨ts, level⟩).rest = _ :=
      behindSeparators_moved ts
    cases hts : behindSeparators ts with
    | nil =>
      rw [hts, if_pos rfl] at hdrop
      rw [program_eq_of_behindSeparators hdrop,
        program_of_behindSeparators_nil (c := ⟨ts, level⟩) hts]
      change program ⟨tail, level⟩ = (program ⟨tail, level⟩).map ([] ++ ·)
      cases program ⟨tail, level⟩ <;> rfl
    | cons l rest =>
      rw [hts, if_neg (List.cons_ne_nil _ _)] at hdrop
      rw [program_of_behindSeparators_cons (c := ⟨ts, level⟩) hts,
        program_of_behindSeparators_cons hdrop]
      have hmoved := moves_statement bytes hsep ⟨l :: rest, level⟩
      change (statement (Cursor.moved bytes tail ⟨l :: rest, level⟩)).bind _ = _
      rw [hmoved]
      cases hs : statement ⟨l :: rest, level⟩ with
      | refused cause c' => rfl
      | halted cause c' => rfl
      | done s c' =>
        refine continueWith_moved hsep s fun us hus => ih us.length ?_ us c'.level rfl
        have hshorter := length_behindSeparators_le ts
        have hle : c'.rest.length ≤ (l :: rest).length := orderly_statement.length_le hs
        rw [hts] at hshorter
        omega

end Parser

end DiagramScope.Script
