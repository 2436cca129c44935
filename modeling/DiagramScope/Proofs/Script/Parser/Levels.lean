import DiagramScope.Proofs.Script.Parser.Lines

/-!
The nesting levels in force while a text is read. Main statement: every rule of the grammar ends at
the level at which it started, or halts at one that it entered; the rules below it are asked at
levels that there may be, so that no level is given back that was not entered; and every item and
every statement starts at the level at which the first one did.
-/

set_option autoImplicit false
set_option relaxedAutoImplicit false

namespace DiagramScope.Script.Parser

variable {α β : Type}

def AgreeOn (levels : Nat → Prop) (p q : Parser α) : Prop := ∀ c, levels c.level → p c = q c

section Agree

variable {levels : Nat → Prop} {p q : Parser α}

private theorem AgreeOn.refl (p : Parser α) : AgreeOn levels p p := fun _ _ => rfl

private theorem AgreeOn.commit (h : AgreeOn levels p q) : AgreeOn levels (commit p) (commit q) := by
  intro c hc
  exact congrArg Outcome.commit (h c hc)

private theorem AgreeOn.bind (h : AgreeOn levels p q) (hp : Orderly p) {f g : α → Parser β}
    (hf : ∀ a, AgreeOn levels (f a) (g a)) : AgreeOn levels (p >>= f) (q >>= g) := by
  intro c hc
  change (p c).bind _ = (q c).bind _
  rw [← h c hc]
  cases hdone : p c with
  | done a c' =>
    have hlevel : c'.level = c.level := hp.level_eq hdone
    exact hf a c' (hlevel.symm ▸ hc)
  | refused cause c' => rfl
  | halted cause c' => rfl

def Upward (levels : Nat → Prop) : Prop :=
  ∀ level, levels level → level < maxNesting → levels (level + 1)

private theorem AgreeOn.nested (h : AgreeOn levels p q) (hup : Upward levels) :
    AgreeOn levels (nested p) (nested q) := by
  intro c hc
  rw [nested_apply, nested_apply]
  split
  · rfl
  · next hlevel =>
    have hdeeper : levels (c.level + 1) := hup c.level hc (Nat.lt_of_not_le hlevel)
    rw [h _ hdeeper]

variable {item item' : Parser Expr}

private theorem AgreeOn.moreItems (h : AgreeOn levels item item') (ho : Orderly item)
    (bound : Nat) : AgreeOn levels (moreItems item bound) (moreItems item' bound) := by
  induction bound with
  | zero => exact .refl _
  | succ bound ih =>
    intro c hc
    simp only [Parser.moreItems]
    cases hfound : acceptSymbol .comma c with
    | refused cause c' => rfl
    | halted cause c' => rfl
    | done found c' =>
      cases found with
      | none => rfl
      | some span =>
        have hlevel : c'.level = c.level := (orderly_acceptSymbol .comma).level_eq hfound
        have hitem : item c' = item' c' := h c' (hlevel.symm ▸ hc)
        simp only
        rw [← hitem]
        cases hdone : item c' with
        | refused cause c'' => rfl
        | halted cause c'' => rfl
        | done e c'' =>
          have hlevel' : c''.level = c.level := (ho.level_eq hdone).trans hlevel
          exact congrArg (Outcome.map (e :: ·)) (ih c'' (hlevel'.symm ▸ hc))

private theorem AgreeOn.items (h : AgreeOn levels item item') (ho : Orderly item) (close : Symbol)
    (expected : Expected) :
    AgreeOn levels (items item close expected) (items item' close expected) := by
  apply (AgreeOn.refl (acceptSymbol close)).bind (orderly_acceptSymbol close)
  intro found
  cases found with
  | some span => exact .refl _
  | none =>
    apply h.bind ho
    intro first
    have hmore : AgreeOn levels (fun c => Parser.moreItems item c.rest.length c)
        (fun c => Parser.moreItems item' c.rest.length c) :=
      fun c => h.moreItems ho c.rest.length c
    exact hmore.bind (fun c => ho.moreItems c.rest.length c) fun more => .refl _

variable {operator? : Token → Option Operator}

private theorem AgreeOn.chainFrom (h : AgreeOn levels item item') (ho : Orderly item)
    (hup : Upward levels) (bound : Nat) (left : Expr) :
    AgreeOn levels (chainFrom operator? item bound left)
      (chainFrom operator? item' bound left) := by
  induction bound generalizing left with
  | zero => exact .refl _
  | succ bound ih =>
    intro c hc
    rw [chainFrom_succ, chainFrom_succ]
    rcases c.rest with _ | ⟨l, rest⟩
    · rfl
    · cases hoperator : operator? l.token with
      | none => simp only [hoperator]
      | some operator =>
        simp only [hoperator]
        split
        · rfl
        · next hlevel =>
          have hdeeper : levels (c.level + 1) := hup c.level hc (Nat.lt_of_not_le hlevel)
          rw [← h ⟨rest, c.level + 1⟩ hdeeper]
          cases hdone : item ⟨rest, c.level + 1⟩ with
          | refused cause c' => rfl
          | halted cause c' => rfl
          | done right c' =>
            have hlevel' : c'.level = c.level + 1 := ho.level_eq hdone
            exact ih (.joined operator left right) c' (hlevel'.symm ▸ hdeeper)

private theorem AgreeOn.chain (h : AgreeOn levels item item') (ho : Orderly item)
    (hup : Upward levels) : AgreeOn levels (chain operator? item) (chain operator? item') := by
  apply h.bind ho
  intro first c hc
  change Outcome.bind _ _ = Outcome.bind _ _
  rw [h.chainFrom ho hup c.rest.length first c hc]

end Agree

section Grammar

variable {levels : Nat → Prop} {u u' : Parser Expr} (h : AgreeOn levels u u') (ho : Orderly u)
  (hup : Upward levels)
include h ho hup

private theorem AgreeOn.product : AgreeOn levels (product u) (product u') := h.chain ho hup

private theorem AgreeOn.expression : AgreeOn levels (expression u) (expression u') :=
  (AgreeOn.product h ho hup).chain ho.chain hup

private theorem AgreeOn.callOrVariable (name : String) (nameSpan : Span) :
    AgreeOn levels (callOrVariable u name nameSpan) (callOrVariable u' name nameSpan) := by
  apply (AgreeOn.refl (acceptSymbol .leftParen)).bind (orderly_acceptSymbol .leftParen)
  intro found
  cases found with
  | none => exact .refl _
  | some span =>
    have hitems := (AgreeOn.expression h ho hup).items ho.expression .rightParen .closeParen
    exact hitems.commit.bind (ho.expression.items .rightParen .closeParen).commit fun _ => .refl _

private theorem AgreeOn.vector (opening : Span) :
    AgreeOn levels (vector u opening) (vector u' opening) := by
  have hitems := (AgreeOn.expression h ho hup).items ho.expression .rightBracket .closeBracket
  exact hitems.commit.bind (ho.expression.items .rightBracket .closeBracket).commit fun _ => .refl _

private theorem AgreeOn.parenthesized (opening : Span) :
    AgreeOn levels (parenthesized u opening) (parenthesized u' opening) :=
  (AgreeOn.expression h ho hup).commit.bind ho.expression.commit fun _ => .refl _

private theorem AgreeOn.primary : AgreeOn levels (primary u) (primary u') := by
  intro c hc
  obtain ⟨rest, level⟩ := c
  -- Only names and opening brackets lead to expressions inside.
  cases rest with
  | nil => rfl
  | cons l rest =>
    obtain ⟨token, span⟩ := l
    cases token with
    | name name => exact AgreeOn.callOrVariable h ho hup name span ⟨rest, level⟩ hc
    | symbol s =>
      cases s with
      | leftParen => exact AgreeOn.parenthesized h ho hup span ⟨rest, level⟩ hc
      | leftBracket => exact AgreeOn.vector h ho hup span ⟨rest, level⟩ hc
      | _ => rfl
    | _ => rfl

private theorem AgreeOn.power : AgreeOn levels (power u) (power u') := by
  apply (AgreeOn.primary h ho hup).bind ho.primary
  intro base
  apply (AgreeOn.refl (acceptSymbol .caret)).bind (orderly_acceptSymbol .caret)
  intro found
  cases found with
  | none => exact .refl _
  | some span => exact h.commit.bind ho.commit fun _ => .refl _

private theorem AgreeOn.signed : AgreeOn levels (signed u) (signed u') := by
  apply (AgreeOn.refl (accept sign?)).bind (orderly_accept sign?)
  intro found
  cases found with
  | none => exact AgreeOn.power h ho hup
  | some found => exact h.commit.bind ho.commit fun _ => .refl _

end Grammar

section Recursion

def Within (start level : Nat) : Prop := start ≤ level ∧ level ≤ maxNesting

private theorem upward_within (start : Nat) : Upward (Within start) := by
  intro level hlevel hlt
  exact ⟨Nat.le_succ_of_le hlevel.1, hlt⟩

/-- More levels than are left make no difference. -/
theorem unaryWithin_eq {budget : Nat} {c : Cursor} (h : maxNesting ≤ c.level + budget) :
    unaryWithin budget c = unary c := by
  induction budget using Nat.strongRecOn generalizing c with
  | ind budget ih =>
    have hunary : unary c = unaryWithin (maxNesting - c.level) c := rfl
    rw [hunary]
    by_cases hfull : maxNesting ≤ c.level
    · have hleft : maxNesting - c.level = 0 := by omega
      rw [hleft]
      cases budget with
      | zero => rfl
      | succ more =>
        have hnested : unaryWithin (more + 1) c = nested (signed (unaryWithin more)) c := rfl
        rw [hnested, nested_apply, if_pos hfull]
        rfl
    · obtain ⟨more, rfl⟩ : ∃ more, budget = more + 1 := ⟨budget - 1, by omega⟩
      obtain ⟨left, hleft⟩ : ∃ left, maxNesting - c.level = left + 1 :=
        ⟨maxNesting - c.level - 1, by omega⟩
      rw [hleft]
      -- Both parsers below read like `unary` one level deeper.
      have hagree : AgreeOn (Within (c.level + 1)) (unaryWithin more) (unaryWithin left) := by
        intro c' hc'
        have hlevel : c.level + 1 ≤ c'.level := hc'.1
        rw [ih more (by omega) (by omega), ih left (by omega) (by omega)]
      have hsigned := AgreeOn.signed hagree (orderly_unaryWithin more) (upward_within _)
        { c with level := c.level + 1 } ⟨Nat.le_refl _, Nat.lt_of_not_le hfull⟩
      calc unaryWithin (more + 1) c
          = nested (signed (unaryWithin more)) c := rfl
        _ = nested (signed (unaryWithin left)) c := by
          rw [nested_apply, nested_apply, if_neg hfull, if_neg hfull, hsigned]
        _ = unaryWithin (left + 1) c := rfl

private theorem unary_eq_nested : unary = nested (signed unary) := by
  funext c
  have hmore : unaryWithin (maxNesting + 1) c = unary c := unaryWithin_eq (by omega)
  have hagree : AgreeOn (Within 0) (unaryWithin maxNesting) unary := by
    intro c' _
    exact unaryWithin_eq (Nat.le_add_left _ _)
  have hsigned := AgreeOn.signed hagree (orderly_unaryWithin _) (upward_within 0)
  have hnested : unaryWithin (maxNesting + 1) c = nested (signed (unaryWithin maxNesting)) c := rfl
  rw [← hmore, hnested, nested_apply, nested_apply]
  split
  · rfl
  · next hlevel =>
    rw [hsigned { c with level := c.level + 1 } ⟨Nat.zero_le _, Nat.lt_of_not_le hlevel⟩]

end Recursion

section Restarts

/-- Reads from a level, whatever level is in force. -/
def fromLevel (level : Nat) (p : Parser α) : Parser α := fun c => p { c with level := level }

private theorem agreeOn_fromLevel (level : Nat) (p : Parser α) :
    AgreeOn (· = level) p (fromLevel level p) := by
  intro c hc
  obtain ⟨rest, _⟩ := c
  obtain rfl := hc
  rfl

def statementsBy (p : Parser Statement) : (bound : Nat) → Parser (List Statement)
  | 0 => pure []
  | bound + 1 => fun c =>
    if (behindSeparators c.rest).isEmpty then .done [] { c with rest := behindSeparators c.rest }
    else (p { c with rest := behindSeparators c.rest }).bind (continueWith (statementsBy p bound))

private theorem statementsBy_statement (bound : Nat) :
    statementsBy statement bound = statements bound := by
  induction bound with
  | zero => rfl
  | succ bound ih =>
    funext c
    rw [statements_succ, ← ih]
    rfl

private theorem AgreeOn.statementsBy {levels : Nat → Prop} {p q : Parser Statement}
    (h : AgreeOn levels p q) (ho : Orderly p) (bound : Nat) :
    AgreeOn levels (statementsBy p bound) (statementsBy q bound) := by
  induction bound with
  | zero => exact .refl _
  | succ bound ih =>
    intro c hc
    simp only [Parser.statementsBy]
    split
    · rfl
    · rw [← h { c with rest := behindSeparators c.rest } hc]
      cases hdone : p { c with rest := behindSeparators c.rest } with
      | refused cause c' => rfl
      | halted cause c' => rfl
      | done s c' =>
        have hlevel : c'.level = c.level :=
          ho.level_eq (c := { c with rest := behindSeparators c.rest }) hdone
        simp only [Outcome.bind, continueWith]
        rcases c'.rest with _ | ⟨l, rest⟩
        · rfl
        · simp only
          rw [ih { c' with rest := rest } (hlevel.symm ▸ hc)]

end Restarts

/-- Whether a parser keeps to the levels that there may be: it ends at the level at which it
started, or it halts at one between that level and the last. -/
structure KeepsLevel (p : Parser α) : Prop where
  done : ∀ c a c', c.level ≤ maxNesting → p c = .done a c' → c'.level = c.level
  refused : ∀ c cause c', c.level ≤ maxNesting → p c = .refused cause c' → c'.level = c.level
  halted : ∀ c cause c', c.level ≤ maxNesting → p c = .halted cause c' →
    c.level ≤ c'.level ∧ c'.level ≤ maxNesting

private theorem Orderly.keepsLevel {p : Parser α} (hp : Orderly p) : KeepsLevel p where
  done c a c' _ h := hp.level_eq h
  refused c cause c' _ h := by
    have ho := hp c
    rw [h] at ho
    exact ho.level not_false
  halted c cause c' hc h := by
    have ho := hp c
    rw [h] at ho
    have hle : c'.level ≤ max c.level maxNesting := ho.leads.level_le
    rw [Nat.max_eq_right hc] at hle
    exact ⟨ho.leads.level_ge, hle⟩

/-- Whether a rule keeps to the levels and asks for signed expressions there only: it reads the same
with any parser of signed expressions that differs from `unary` at other levels alone. -/
structure Disciplined (rule : Parser Expr → Parser α) : Prop where
  keeps : KeepsLevel (rule unary)
  asks : ∀ c, c.level ≤ maxNesting → ∀ p, AgreeOn (Within c.level) unary p → rule p c = rule unary c

private theorem disciplined_of {rule : Parser Expr → Parser α} (ho : Orderly (rule unary))
    (hagree : ∀ (levels : Nat → Prop) (p : Parser Expr), AgreeOn levels unary p → Upward levels →
      AgreeOn levels (rule unary) (rule p)) : Disciplined rule where
  keeps := ho.keepsLevel
  asks c hc p hp :=
    (hagree (Within c.level) p hp (upward_within c.level) c ⟨Nat.le_refl _, hc⟩).symm

/-- What holds of the levels while statements are read. -/
structure LevelDiscipline : Prop where
  unary_eq : unary = nested (signed unary)
  unary_rule : Disciplined fun u => nested (signed u)
  signed_rule : Disciplined signed
  power_rule : Disciplined power
  primary_rule : Disciplined primary
  vector_rule : ∀ opening, Disciplined fun u => vector u opening
  call_rule : ∀ name nameSpan, Disciplined fun u => callOrVariable u name nameSpan
  parenthesized_rule : ∀ opening, Disciplined fun u => parenthesized u opening
  product_rule : Disciplined product
  sum_rule : Disciplined sum
  items_rule : ∀ close expected, Disciplined fun u => items (expression u) close expected
  statement_rule : KeepsLevel statement
  /-- The level that is given back behind a signed expression has been entered. -/
  given_back : ∀ c : Cursor, c.level < maxNesting →
    c.level < (signed unary { c with level := c.level + 1 }).cursor.level
  /-- Every item starts at the level of the list. -/
  item_levels : ∀ close expected (c : Cursor),
    items (fromLevel c.level (expression unary)) close expected c =
      items (expression unary) close expected c
  /-- Every statement starts at the level of the first. -/
  statement_levels : ∀ bound (c : Cursor),
    statementsBy (fromLevel c.level statement) bound c = statements bound c

/-- The levels are kept in this way at every cursor. -/
theorem levels_are_given_back : LevelDiscipline where
  unary_eq := unary_eq_nested
  unary_rule := disciplined_of orderly_unary.signed.nested fun _ _ hp hup =>
    (AgreeOn.signed hp orderly_unary hup).nested hup
  signed_rule := disciplined_of orderly_unary.signed fun _ _ hp hup => .signed hp orderly_unary hup
  power_rule := disciplined_of orderly_unary.power fun _ _ hp hup => .power hp orderly_unary hup
  primary_rule := disciplined_of orderly_unary.primary fun _ _ hp hup =>
    .primary hp orderly_unary hup
  vector_rule opening := disciplined_of (orderly_unary.vector opening) fun _ _ hp hup =>
    .vector hp orderly_unary hup opening
  call_rule name nameSpan :=
    disciplined_of (orderly_unary.callOrVariable name nameSpan) fun _ _ hp hup =>
      .callOrVariable hp orderly_unary hup name nameSpan
  parenthesized_rule opening :=
    disciplined_of (orderly_unary.parenthesized opening) fun _ _ hp hup =>
      .parenthesized hp orderly_unary hup opening
  product_rule := disciplined_of orderly_unary.chain fun _ _ hp hup => .product hp orderly_unary hup
  sum_rule := disciplined_of orderly_unary.expression fun _ _ hp hup =>
    .expression hp orderly_unary hup
  items_rule close expected :=
    disciplined_of (orderly_unary.expression.items close expected) fun _ _ hp hup =>
      (AgreeOn.expression hp orderly_unary hup).items orderly_unary.expression close expected
  statement_rule := orderly_statement.keepsLevel
  given_back c _ := (orderly_unary.signed { c with level := c.level + 1 }).leads.level_ge
  item_levels close expected c :=
    ((agreeOn_fromLevel c.level (expression unary)).items orderly_unary.expression close
      expected c rfl).symm
  statement_levels bound c := by
    have hagree := (agreeOn_fromLevel c.level statement).statementsBy orderly_statement bound
    rw [← hagree c rfl, statementsBy_statement]

end DiagramScope.Script.Parser
