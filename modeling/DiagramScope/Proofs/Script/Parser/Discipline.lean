import DiagramScope.Script.Syntax.Parser

/-!
What parsers do to the cursor. They read tokens from the front only, and they give back every
nesting level that they enter unless they halt. Main statement: every rule of the grammar is orderly
in this sense.
-/

set_option autoImplicit false
set_option relaxedAutoImplicit false

namespace DiagramScope.Script

/-- A cursor that reading can lead to: some tokens are read and some levels are entered, no more
than there may be. -/
structure Cursor.Leads (start c : Cursor) : Prop where
  rest : c.rest <:+ start.rest
  level_ge : start.level ≤ c.level
  level_le : c.level ≤ max start.level maxNesting

namespace Cursor.Leads

theorem refl (c : Cursor) : c.Leads c := ⟨List.suffix_refl _, Nat.le_refl _, Nat.le_max_left _ _⟩

theorem trans {a b c : Cursor} (hab : a.Leads b) (hbc : b.Leads c) : a.Leads c := by
  refine ⟨hbc.rest.trans hab.rest, Nat.le_trans hab.level_ge hbc.level_ge, ?_⟩
  exact Nat.le_trans hbc.level_le (Nat.max_le.2 ⟨hab.level_le, Nat.le_max_right _ _⟩)

theorem of_suffix {c : Cursor} {rest : List Lexeme} (h : rest <:+ c.rest) :
    c.Leads { c with rest := rest } :=
  ⟨h, Nat.le_refl _, Nat.le_max_left _ _⟩

private theorem length_le {a b : Cursor} (h : a.Leads b) :
    b.rest.length ≤ a.rest.length := h.rest.length_le

end Cursor.Leads

namespace Outcome

variable {α β : Type}

def IsHalted : Outcome α → Prop
  | halted _ _ => True
  | _ => False

/-- An outcome at a cursor that reading leads to, at the starting level unless it is a halt. -/
structure Orderly (start : Cursor) (o : Outcome α) : Prop where
  leads : start.Leads o.cursor
  level : ¬ o.IsHalted → o.cursor.level = start.level

theorem Orderly.bind {start : Cursor} {o : Outcome α} {f : α → Cursor → Outcome β}
    (ho : o.Orderly start) (hf : ∀ a c, (f a c).Orderly c) : (o.bind f).Orderly start := by
  cases o with
  | done a c =>
    have hlevel : c.level = start.level := ho.level not_false
    exact ⟨ho.leads.trans (hf a c).leads, fun h => ((hf a c).level h).trans hlevel⟩
  | refused cause c => exact ⟨ho.leads, ho.level⟩
  | halted cause c => exact ⟨ho.leads, ho.level⟩

theorem Orderly.map {start : Cursor} {o : Outcome α} (ho : o.Orderly start) (f : α → β) :
    (o.map f).Orderly start :=
  ho.bind fun _ c => ⟨.refl c, fun _ => rfl⟩

theorem Orderly.commit {start : Cursor} {o : Outcome α} (ho : o.Orderly start) :
    o.commit.Orderly start := by
  cases o with
  | done a c => exact ho
  | refused cause c => exact ⟨ho.leads, fun h => absurd trivial h⟩
  | halted cause c => exact ho

private theorem cursor_relevel (f : Nat → Nat) (o : Outcome α) :
    (o.relevel f).cursor = { o.cursor with level := f o.cursor.level } := by
  cases o <;> rfl

private theorem isHalted_relevel (f : Nat → Nat) (o : Outcome α) :
    (o.relevel f).IsHalted ↔ o.IsHalted := by
  cases o <;> rfl

private theorem Orderly.relevel {start : Cursor} {o : Outcome α}
    (ho : o.Orderly { start with level := start.level + 1 }) :
    (o.relevel (· - 1)).Orderly start := by
  obtain ⟨⟨hrest, hge, hle⟩, hlevel⟩ := ho
  simp only at hge hle hlevel
  constructor
  · rw [cursor_relevel]
    refine ⟨hrest, ?_, ?_⟩
    · exact Nat.le_sub_one_of_lt hge
    · simp only
      omega
  · intro hgoes
    rw [isHalted_relevel] at hgoes
    rw [cursor_relevel, hlevel hgoes]
    exact Nat.add_sub_cancel _ _

end Outcome

theorem Outcome.bind_eq_done_iff {α β : Type} {o : Outcome α} {f : α → Cursor → Outcome β} {b : β}
    {c : Cursor} : o.bind f = .done b c ↔ ∃ a c', o = .done a c' ∧ f a c' = .done b c := by
  cases o with
  | done a c' =>
    constructor
    · exact fun h => ⟨a, c', rfl, h⟩
    · rintro ⟨_, _, h, hf⟩
      cases h
      exact hf
  | refused cause c' => simp [bind]
  | halted cause c' => simp [bind]

theorem Outcome.bind_congr {α β : Type} {o : Outcome α} {f g : α → Cursor → Outcome β}
    (h : ∀ a c, o = .done a c → f a c = g a c) : o.bind f = o.bind g := by
  cases o with
  | done a c => exact h a c rfl
  | refused cause c => rfl
  | halted cause c => rfl

theorem Outcome.commit_eq_done_iff {α : Type} {o : Outcome α} {a : α} {c : Cursor} :
    o.commit = .done a c ↔ o = .done a c := by
  cases o <;> simp [commit]

namespace Parser

variable {α β : Type}

theorem nested_apply (p : Parser α) (c : Cursor) :
    nested p c =
      if maxNesting ≤ c.level then .halted .nesting c
      else (p { c with level := c.level + 1 }).relevel (· - 1) := by
  change (descend c).bind (fun _ c => (p c).relevel (· - 1)) = _
  unfold descend
  split <;> rfl

theorem chainFrom_succ (operator? : Token → Option Operator) (operand : Parser Expr) (bound : Nat)
    (left : Expr) (c : Cursor) :
    chainFrom operator? operand (bound + 1) left c =
      match c.rest with
      | [] => .done left c
      | l :: rest =>
        match operator? l.token with
        | none => .done left c
        | some operator =>
          if maxNesting ≤ c.level then .halted .nesting { c with rest := rest }
          else
            (operand ⟨rest, c.level + 1⟩).commit.bind fun right c' =>
              chainFrom operator? operand bound (.joined operator left right) c' := by
  change (accept operator? c).bind _ = _
  unfold accept
  rcases c.rest with _ | ⟨l, rest⟩
  · rfl
  · dsimp only
    cases operator? l.token with
    | none => rfl
    | some operator =>
      change (descend _).bind _ = _
      unfold descend
      split <;> rfl

theorem chain_apply (operator? : Token → Option Operator) (operand : Parser Expr) (c : Cursor) :
    chain operator? operand c =
      (operand c).bind fun first c' =>
        (chainFrom operator? operand c'.rest.length first c').bind fun e c'' =>
          .done e { c'' with level := c'.level } := rfl

theorem statement_of_not_assignment {c : Cursor}
    (h : ¬ ∃ name nameSpan equalsSpan rest,
      c.rest = ⟨.name name, nameSpan⟩ :: ⟨.symbol .equals, equalsSpan⟩ :: rest) :
    statement c = (expression unary c).map .expression := by
  unfold statement
  split
  · next name nameSpan equalsSpan rest hrest => exact absurd ⟨_, _, _, _, hrest⟩ h
  · rfl

def Next (P : Token → Prop) (rest : List Lexeme) : Prop := ∀ l more, rest = l :: more → P l.token

theorem Next.cons {P : Token → Prop} {l : Lexeme} (h : P l.token) (more : List Lexeme) :
    Next P (l :: more) := by
  intro l' more' hl
  obtain ⟨rfl, -⟩ := List.cons.inj hl
  exact h

theorem Next.mono {P Q : Token → Prop} {rest : List Lexeme} (h : Next P rest)
    (hPQ : ∀ t, P t → Q t) : Next Q rest := by
  intro l more hl
  exact hPQ l.token (h l more hl)

def Orderly (p : Parser α) : Prop := ∀ c, (p c).Orderly c

theorem Orderly.pure (a : α) : Orderly (Pure.pure a : Parser α) :=
  fun c => ⟨.refl c, fun _ => rfl⟩

private theorem Orderly.bind {p : Parser α} {q : α → Parser β} (hp : Orderly p)
    (hq : ∀ a, Orderly (q a)) : Orderly (p >>= q) :=
  fun c => (hp c).bind fun a => hq a

theorem Orderly.commit {p : Parser α} (hp : Orderly p) : Orderly (commit p) :=
  fun c => (hp c).commit

private theorem orderly_refused (cause : Cause) : Orderly (fun c => .refused cause c : Parser α) :=
  fun c => ⟨.refl c, fun _ => rfl⟩

theorem orderly_accept (select : Token → Option β) : Orderly (accept select) := by
  intro c
  unfold accept
  split
  · exact ⟨.refl c, fun _ => rfl⟩
  · next l rest hrest =>
    split
    · exact ⟨.of_suffix (hrest ▸ List.suffix_cons l rest), fun _ => rfl⟩
    · exact ⟨.refl c, fun _ => rfl⟩

theorem orderly_acceptSymbol (s : Symbol) : Orderly (acceptSymbol s) := by
  intro c
  unfold acceptSymbol
  split
  · next rest hrest =>
    split
    · exact ⟨.of_suffix (hrest ▸ List.suffix_cons _ rest), fun _ => rfl⟩
    · exact ⟨.refl c, fun _ => rfl⟩
  · exact ⟨.refl c, fun _ => rfl⟩

private theorem orderly_expectSymbol (s : Symbol) (expected : Expected) :
    Orderly (expectSymbol s expected) := by
  apply (orderly_acceptSymbol s).bind
  intro found
  cases found with
  | none => exact orderly_refused _
  | some span => exact .pure span

theorem length_lt_of_acceptSymbol {s : Symbol} {c c' : Cursor} {span : Span}
    (h : acceptSymbol s c = .done (some span) c') : c'.rest.length < c.rest.length := by
  unfold acceptSymbol at h
  split at h
  · next rest hrest =>
    split at h
    · cases h
      simp [hrest]
    · cases h
  · cases h

theorem Orderly.nested {p : Parser α} (hp : Orderly p) : Orderly (nested p) := by
  intro c
  rw [nested_apply]
  split
  · exact ⟨.refl c, fun h => absurd trivial h⟩
  · exact (hp { c with level := c.level + 1 }).relevel

theorem Orderly.moreItems {expression : Parser Expr} (he : Orderly expression) (bound : Nat) :
    Orderly (moreItems expression bound) := by
  induction bound with
  | zero => exact .pure []
  | succ bound ih =>
    intro c
    have hcomma := orderly_acceptSymbol .comma c
    simp only [Parser.moreItems]
    split
    · next span c' hc' =>
      rw [hc'] at hcomma
      have hlevel' : c'.level = c.level := hcomma.level not_false
      have hitem := he c'
      split
      · next item c'' hc'' =>
        rw [hc''] at hitem
        have hlevel'' : c''.level = c.level := (hitem.level not_false).trans hlevel'
        have hmore := (ih c'').map (item :: ·)
        exact ⟨(hcomma.leads.trans hitem.leads).trans hmore.leads,
          fun h => (hmore.level h).trans hlevel''⟩
      · next cause c'' hc'' =>
        rw [hc''] at hitem
        have hlevel'' : c''.level = c.level := (hitem.level not_false).trans hlevel'
        exact ⟨⟨List.suffix_refl _, Nat.le_of_eq hlevel''.symm,
          Nat.le_trans (Nat.le_of_eq hlevel'') (Nat.le_max_left _ _)⟩, fun _ => hlevel''⟩
      · next cause c'' hc'' =>
        rw [hc''] at hitem
        exact ⟨hcomma.leads.trans hitem.leads, fun h => absurd trivial h⟩
    · exact ⟨.refl c, fun _ => rfl⟩

theorem Orderly.items {expression : Parser Expr} (he : Orderly expression) (close : Symbol)
    (expected : Expected) : Orderly (items expression close expected) := by
  apply (orderly_acceptSymbol close).bind
  intro found
  cases found with
  | some span => exact .pure _
  | none =>
    apply he.bind
    intro first
    refine Orderly.bind (fun c => he.moreItems c.rest.length c) fun more => ?_
    exact (orderly_expectSymbol close expected).bind fun span => .pure _

section Chain

variable {operator? : Token → Option Operator} {operand : Parser Expr}

private theorem leads_chainFrom (operator? : Token → Option Operator) (ho : Orderly operand)
    (bound : Nat) (left : Expr) (c : Cursor) :
    c.Leads (chainFrom operator? operand bound left c).cursor ∧
      ∀ cause c', chainFrom operator? operand bound left c ≠ .refused cause c' := by
  induction bound generalizing left c with
  | zero => exact ⟨.refl c, fun _ _ h => by cases h⟩
  | succ bound ih =>
    rw [chainFrom_succ]
    split
    · exact ⟨.refl c, fun _ _ h => by cases h⟩
    · next l rest hrest =>
      have hrest' : rest <:+ c.rest := hrest ▸ List.suffix_cons l rest
      split
      · exact ⟨.refl c, fun _ _ h => by cases h⟩
      · next operator _ =>
        split
        · exact ⟨.of_suffix hrest', fun _ _ h => by cases h⟩
        · next hlevel =>
          have hstart : c.Leads ⟨rest, c.level + 1⟩ :=
            ⟨hrest', Nat.le_succ _, Nat.le_trans (Nat.lt_of_not_le hlevel) (Nat.le_max_right _ _)⟩
          have hright := ho ⟨rest, c.level + 1⟩
          cases hoperand : operand ⟨rest, c.level + 1⟩ with
          | done right c₂ =>
            rw [hoperand] at hright
            have h := ih (.joined operator left right) c₂
            exact ⟨(hstart.trans hright.leads).trans h.1, h.2⟩
          | refused cause c₂ =>
            rw [hoperand] at hright
            exact ⟨hstart.trans hright.leads, fun _ _ h => by cases h⟩
          | halted cause c₂ =>
            rw [hoperand] at hright
            exact ⟨hstart.trans hright.leads, fun _ _ h => by cases h⟩

theorem Orderly.chain (ho : Orderly operand) : Orderly (chain operator? operand) := by
  intro start
  rw [chain_apply]
  apply (ho start).bind
  intro first c
  have h := leads_chainFrom operator? ho c.rest.length first c
  cases hchain : chainFrom operator? operand c.rest.length first c with
  | done e c' =>
    rw [hchain] at h
    exact ⟨.of_suffix h.1.rest, fun _ => rfl⟩
  | refused cause c' => exact absurd hchain (h.2 cause c')
  | halted cause c' =>
    rw [hchain] at h
    exact ⟨h.1, fun h => absurd trivial h⟩

end Chain

section Grammar

variable {unary : Parser Expr}

theorem Orderly.expression (hu : Orderly unary) : Orderly (expression unary) := hu.chain.chain

theorem Orderly.callOrVariable (hu : Orderly unary) (name : String) (nameSpan : Span) :
    Orderly (callOrVariable unary name nameSpan) := by
  apply (orderly_acceptSymbol .leftParen).bind
  intro found
  cases found with
  | none => exact .pure _
  | some span =>
    exact (hu.expression.items .rightParen .closeParen).commit.bind fun _ => .pure _

theorem Orderly.vector (hu : Orderly unary) (opening : Span) : Orderly (vector unary opening) :=
  (hu.expression.items .rightBracket .closeBracket).commit.bind fun _ => .pure _

theorem Orderly.parenthesized (hu : Orderly unary) (opening : Span) :
    Orderly (parenthesized unary opening) :=
  hu.expression.commit.bind fun _ =>
    (orderly_expectSymbol .rightParen .closeParen).commit.bind fun _ => .pure _

private theorem Orderly.behind {p : Parser α} (hp : Orderly p) {c : Cursor} {l : Lexeme}
    {rest : List Lexeme} (h : c.rest = l :: rest) :
    (p { c with rest := rest }).Orderly c := by
  have ho := hp { c with rest := rest }
  exact ⟨(Cursor.Leads.of_suffix (h ▸ List.suffix_cons l rest)).trans ho.leads, ho.level⟩

theorem Orderly.primary (hu : Orderly unary) : Orderly (primary unary) := by
  intro c
  unfold Parser.primary
  split
  · next h => exact (Orderly.pure _).behind h
  · next h => exact (Orderly.pure _).behind h
  · next h => exact (hu.callOrVariable _ _).behind h
  · next h => exact (hu.parenthesized _).behind h
  · next h => exact (hu.vector _).behind h
  · exact orderly_refused _ c

theorem Orderly.power (hu : Orderly unary) : Orderly (power unary) := by
  refine hu.primary.bind fun base => (orderly_acceptSymbol .caret).bind fun found => ?_
  cases found with
  | none => exact .pure _
  | some span => exact hu.commit.bind fun _ => .pure _

theorem Orderly.signed (hu : Orderly unary) : Orderly (signed unary) := by
  apply (orderly_accept sign?).bind
  intro found
  cases found with
  | none => exact hu.power
  | some found => exact hu.commit.bind fun _ => .pure _

end Grammar

theorem orderly_unaryWithin (budget : Nat) : Orderly (unaryWithin budget) := by
  induction budget with
  | zero => exact fun c => ⟨.refl c, fun h => absurd trivial h⟩
  | succ budget ih => exact ih.signed.nested

theorem orderly_unary : Orderly unary := fun c => orderly_unaryWithin (maxNesting - c.level) c

theorem orderly_statement : Orderly statement := by
  intro c
  unfold statement
  split
  · next name nameSpan equalsSpan rest h =>
    have hvalue := (orderly_unary.expression.commit { c with rest := rest }).map
      (Statement.assign name nameSpan)
    have hsuffix : rest <:+ c.rest := by
      rw [h]
      exact (List.suffix_cons _ rest).trans (List.suffix_cons _ _)
    exact ⟨(Cursor.Leads.of_suffix hsuffix).trans hvalue.leads, hvalue.level⟩
  · exact (orderly_unary.expression c).map Statement.expression

section Success

theorem bind_eq_done_iff {p : Parser α} {q : α → Parser β} {b : β} {c c'' : Cursor} :
    (p >>= q) c = .done b c'' ↔ ∃ a c', p c = .done a c' ∧ q a c' = .done b c'' :=
  Outcome.bind_eq_done_iff

theorem commit_eq_done_iff {p : Parser α} {a : α} {c c' : Cursor} :
    commit p c = .done a c' ↔ p c = .done a c' :=
  Outcome.commit_eq_done_iff

/-- An orderly parser that succeeds gives all levels back. -/
theorem Orderly.level_eq {p : Parser α} (hp : Orderly p) {a : α} {c c' : Cursor}
    (h : p c = .done a c') : c'.level = c.level := by
  have ho := hp c
  rw [h] at ho
  exact ho.level not_false

theorem Orderly.length_le {p : Parser α} (hp : Orderly p) {a : α} {c c' : Cursor}
    (h : p c = .done a c') : c'.rest.length ≤ c.rest.length := by
  have hleads := (hp c).leads.length_le
  rwa [h] at hleads

end Success

end Parser

end DiagramScope.Script
