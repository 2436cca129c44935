import DiagramScope.Proofs.Script.Syntax.Standing

/-!
Tokens that a program can start with. Main statement: the tokens of a phrase are put together from
those of its parts, so that tokens in which the last part is not complete yet can be completed.
-/

set_option autoImplicit false
set_option relaxedAutoImplicit false

namespace DiagramScope.Script

def Token.isComma : Token → Bool
  | .symbol .comma => true
  | _ => false

theorem Token.isComma_of_starts {t : Token} (h : Grammar.starts t = true) : t.isComma = false := by
  cases t with
  | symbol s => cases s <;> first | rfl | cases h
  | _ => rfl

theorem Token.isComma_of_isSeparator {t : Token} (h : t.isSeparator = true) :
    t.isComma = false := by
  cases t with
  | symbol s => cases s <;> first | rfl | cases h
  | _ => rfl

def pendingComma (ts : List Lexeme) : List Lexeme :=
  (ts.getLast?.filter fun l => l.token.isComma).toList

def EndsInComma (ts : List Lexeme) : Prop :=
  ∃ initial span, ts = initial ++ [⟨.symbol .comma, span⟩]

section Comma

variable {ts : List Lexeme} {l : Lexeme}

theorem pendingComma_append_singleton (ts : List Lexeme) (l : Lexeme) :
    pendingComma (ts ++ [l]) = if l.token.isComma then [l] else [] := by
  unfold pendingComma
  rw [List.getLast?_append]
  simp only [List.getLast?_singleton, Option.some_or, Option.filter_some]
  split <;> rfl

theorem pendingComma_singleton (h : l.token.isComma = false) : pendingComma [l] = [] := by
  have hl := pendingComma_append_singleton [] l
  rwa [List.nil_append, h, if_neg Bool.false_ne_true] at hl

theorem pendingComma_append (h : pendingComma ts = []) (us : List Lexeme) :
    pendingComma (ts ++ us) = pendingComma us := by
  rcases List.eq_nil_or_concat us with rfl | ⟨initial, l, rfl⟩
  · rw [List.append_nil, h]
    rfl
  · rw [List.concat_eq_append, ← List.append_assoc, pendingComma_append_singleton,
      pendingComma_append_singleton]

theorem pendingComma_cases (ts : List Lexeme) :
    (pendingComma ts = [] ∧ ¬ EndsInComma ts) ∨
      ∃ initial l, ts = initial ++ [l] ∧ pendingComma ts = [l] ∧ EndsInComma ts := by
  rcases List.eq_nil_or_concat ts with rfl | ⟨initial, l, rfl⟩
  · refine .inl ⟨rfl, ?_⟩
    rintro ⟨initial, span, h⟩
    exact absurd h (List.append_ne_nil_of_right_ne_nil _ (List.cons_ne_nil _ _)).symm
  · rw [List.concat_eq_append, pendingComma_append_singleton]
    obtain ⟨token, span⟩ := l
    by_cases hcomma : token = .symbol .comma
    · subst hcomma
      exact .inr ⟨initial, _, rfl, rfl, initial, span, rfl⟩
    · have hnot : token.isComma = false := by
        cases token with
        | symbol s => cases s <;> first | rfl | exact absurd rfl hcomma
        | _ => rfl
      refine .inl ⟨by rw [hnot]; rfl, ?_⟩
      rintro ⟨initial', span', h⟩
      have hlast := (List.append_inj' h rfl).2
      exact hcomma (congrArg Lexeme.token (List.cons.inj hlast).1)

end Comma

namespace Grammar

def Whole {α : Type} (φ : α → Phrase) (a : α) (ts : List Lexeme) : Prop :=
  ∃ n, Derives (φ a) n ts []

private theorem Derives.append {φ : Phrase} {n : Nat} {ts : List Lexeme} (h : Derives φ n ts [])
    (rest : List Lexeme) : Derives φ n (ts ++ rest) rest := by
  obtain ⟨run, hrun, hderives⟩ := h.exists_run
  rw [List.append_nil] at hrun
  exact hrun ▸ hderives.derives rest

section Whole

variable {k : Chain} {left right e : Expr} {es : List Expr} {ts us : List Lexeme}

theorem Whole.chain (hfirst : Whole k.operand left ts) (hlinks : Whole (.links k left) e us) :
    Whole (.chain k) e (ts ++ us) := by
  obtain ⟨_, hfirst⟩ := hfirst
  obtain ⟨_, hlinks⟩ := hlinks
  exact ⟨_, .chain (hfirst.append us) hlinks⟩

theorem whole_noLink (k : Chain) (e : Expr) : Whole (.links k e) e [] := ⟨0, .noLink k e []⟩

theorem Whole.link {l : Lexeme} {operator : Operator} (hl : k.operator? l.token = some operator)
    (hright : Whole k.operand right ts)
    (hlinks : Whole (.links k (.joined operator left right)) e us) :
    Whole (.links k left) e (l :: ts ++ us) := by
  obtain ⟨_, hright⟩ := hright
  obtain ⟨_, hlinks⟩ := hlinks
  exact ⟨_, .link hl (hright.append us) hlinks⟩

theorem Whole.sign {l : Lexeme} {sign : Sign} (hl : Parser.sign? l.token = some sign)
    (h : Whole .unary e ts) : Whole .unary (.signed sign e (l.span.union e.span)) (l :: ts) := by
  obtain ⟨_, h⟩ := h
  exact ⟨_, .sign hl h⟩

theorem Whole.unsigned (h : Whole .power e ts) : Whole .unary e ts := by
  obtain ⟨_, h⟩ := h
  exact ⟨_, .unsigned h⟩

theorem Whole.base (h : Whole .primary e ts) : Whole .power e ts := by
  obtain ⟨_, h⟩ := h
  exact ⟨_, .base h⟩

theorem Whole.raised (hbase : Whole .primary left ts) (caret : Span) (h : Whole .unary right us) :
    Whole .power (.joined .power left right) (ts ++ ⟨.symbol .caret, caret⟩ :: us) := by
  obtain ⟨_, hbase⟩ := hbase
  obtain ⟨_, h⟩ := h
  exact ⟨_, .raised (hbase.append _) h⟩

theorem Whole.call (h : Whole .items es ts) (name : String) (nameSpan opening close : Span) :
    Whole .primary (.call name nameSpan es (nameSpan.union close))
      (⟨.name name, nameSpan⟩ :: ⟨.symbol .leftParen, opening⟩ ::
        (ts ++ [⟨.symbol .rightParen, close⟩])) := by
  obtain ⟨_, h⟩ := h
  exact ⟨_, .call name nameSpan opening close (h.append _)⟩

theorem Whole.vector (h : Whole .items es ts) (opening close : Span) :
    Whole .primary (.vector es (opening.union close))
      (⟨.symbol .leftBracket, opening⟩ :: (ts ++ [⟨.symbol .rightBracket, close⟩])) := by
  obtain ⟨_, h⟩ := h
  exact ⟨_, .vector opening close (h.append _)⟩

theorem Whole.group (h : Whole (.chain .sum) e ts) (opening close : Span) :
    Whole .primary (e.withSpan (opening.union close))
      (⟨.symbol .leftParen, opening⟩ :: (ts ++ [⟨.symbol .rightParen, close⟩])) := by
  obtain ⟨_, h⟩ := h
  exact ⟨_, .group opening close (h.append _)⟩

theorem Whole.items (hfirst : Whole (.chain .sum) e ts) (hmore : Whole .moreItems es us) :
    Whole .items (e :: es) (ts ++ us) := by
  obtain ⟨_, hfirst⟩ := hfirst
  obtain ⟨_, hmore⟩ := hmore
  exact ⟨_, .items (hfirst.append us) hmore⟩

theorem Whole.more (comma : Span) (hitem : Whole (.chain .sum) e ts)
    (hmore : Whole .moreItems es us) :
    Whole .moreItems (e :: es) (⟨.symbol .comma, comma⟩ :: ts ++ us) := by
  obtain ⟨_, hitem⟩ := hitem
  obtain ⟨_, hmore⟩ := hmore
  exact ⟨_, .more comma (hitem.append us) hmore⟩

theorem whole_number (span : Span) :
    Whole .primary (.number 0 span) [⟨.number 0, span⟩] := ⟨0, .number 0 span []⟩

private theorem Whole.expression (h : Whole .unary e ts) : Whole (.chain .sum) e ts := by
  obtain ⟨_, h⟩ := h
  exact ⟨_, h.sum_of_unary⟩

theorem whole_expression (span : Span) :
    Whole (.chain .sum) (.number 0 span) [⟨.number 0, span⟩] :=
  (whole_number span).base.unsigned.expression

end Whole

section Programs

variable {s : Statement} {p : List Statement} {m n : Nat} {ts : List Lexeme}

theorem IsStatement.append (h : IsStatement s n ts []) (rest : List Lexeme) :
    IsStatement s n (ts ++ rest) rest := by
  cases h with
  | assign name nameSpan equals h => exact .assign name nameSpan equals (h.append rest)
  | expression h => exact .expression (h.append rest)

private theorem IsProgram.append_separator (h : IsProgram p n ts) {l : Lexeme}
    (hl : l.token.isSeparator = true) : ∃ m, IsProgram p m (ts ++ [l]) := by
  induction h with
  | nil => exact ⟨0, .separator hl .nil⟩
  | separator hl' _ ih =>
    obtain ⟨m, hm⟩ := ih
    exact ⟨m, .separator hl' hm⟩
  | last hs => exact ⟨_, .cons (hs.append [l]) hl .nil⟩
  | @cons s p m n l' ts us hfirst hl' _ ih =>
    obtain ⟨n', hn'⟩ := ih
    obtain ⟨run, rfl, hrun⟩ := hfirst.exists_run
    have hprogram := IsProgram.cons (hrun.isStatement (l' :: (us ++ [l]))) hl' hn'
    rw [← List.cons_append, ← List.append_assoc] at hprogram
    exact ⟨_, hprogram⟩

end Programs

/-- Whether tokens are the start, but not all, of a program. -/
def Viable (ts : List Lexeme) : Prop :=
  ∃ more, more ≠ [] ∧ ∃ p n, IsProgram p n (ts ++ more)

theorem viable_of_isProgram {p : List Statement} {n : Nat} {ts more : List Lexeme}
    (h : IsProgram p n (ts ++ more)) : Viable ts := by
  obtain ⟨m, hm⟩ := h.append_separator (l := ⟨.newline, .atOffset 0⟩) rfl
  rw [List.append_assoc] at hm
  exact ⟨_, List.append_ne_nil_of_right_ne_nil _ (List.cons_ne_nil _ _), p, m, hm⟩

private theorem Viable.of_append {ts us : List Lexeme} (h : Viable (ts ++ us)) : Viable ts := by
  obtain ⟨more, -, p, n, hprogram⟩ := h
  rw [List.append_assoc] at hprogram
  exact viable_of_isProgram hprogram

/-- The longest start of the tokens that programs start with, and the tokens behind it. -/
structure LongestViable (ts front unread : List Lexeme) : Prop where
  split : ts = front ++ unread
  viable : Viable front
  stuck : ∀ u more, unread = u :: more → ¬ Viable (front ++ [u])

theorem LongestViable.viable_iff {ts front unread : List Lexeme}
    (h : LongestViable ts front unread) : Viable ts ↔ unread = [] := by
  rw [h.split]
  cases unread with
  | nil =>
    rw [List.append_nil]
    exact ⟨fun _ => rfl, fun _ => h.viable⟩
  | cons u more =>
    rw [List.append_cons]
    exact ⟨fun hall => absurd hall.of_append (h.stuck u more rfl), nofun⟩

end Grammar

end DiagramScope.Script
