import DiagramScope.Proofs.Script.Syntax.Grammar
import DiagramScope.Proofs.Script.Lines

/-!
What the parser reads is in the grammar. Main statement: a program that is read derives from its
tokens, within the nesting levels that there may be.
-/

set_option autoImplicit false
set_option relaxedAutoImplicit false

namespace DiagramScope.Script

open Grammar (Phrase Derives IsStatement IsProgram)

namespace Parser

/-- What a parser reads derives from a phrase, within the levels that are left. -/
def Derived {α : Type} (phrase : α → Phrase) (p : Parser α) : Prop :=
  ∀ c a c', c.level ≤ maxNesting → p c = .done a c' →
    ∃ n, c.level + n ≤ maxNesting ∧ Derives (phrase a) n c.rest c'.rest

private theorem rest_of_acceptSymbol {s : Symbol} {span : Span} {c c' : Cursor}
    (h : acceptSymbol s c = .done (some span) c') :
    c.rest = ⟨.symbol s, span⟩ :: c'.rest ∧ c'.level = c.level := by
  unfold acceptSymbol at h
  split at h
  · next rest hrest =>
    split at h
    · next hs =>
      subst hs
      cases h
      exact ⟨hrest, rfl⟩
    · cases h
  · cases h

private theorem eq_of_acceptSymbol_none {s : Symbol} {c c' : Cursor}
    (h : acceptSymbol s c = .done none c') : c' = c := by
  unfold acceptSymbol at h
  split at h
  · split at h
    · cases h
    · cases h
      rfl
  · cases h
    rfl

private theorem rest_of_expectSymbol {s : Symbol} {expected : Expected} {span : Span}
    {c c' : Cursor} (h : expectSymbol s expected c = .done span c') :
    c.rest = ⟨.symbol s, span⟩ :: c'.rest := by
  obtain ⟨found, c₁, hfound, hrest⟩ := bind_eq_done_iff.1 h
  cases found with
  | none => cases hrest
  | some span' =>
    cases hrest
    exact (rest_of_acceptSymbol hfound).1

section Chain

variable {k : Grammar.Chain} {operand : Parser Expr}

private theorem derives_chainFrom (ho : Orderly operand) (hd : Derived k.operand operand)
    {bound : Nat} {left e : Expr} {c c' : Cursor} (hlevel : c.level ≤ maxNesting)
    (h : chainFrom k.operator? operand bound left c = .done e c') :
    ∃ n, c.level + n ≤ maxNesting ∧ Derives (.links k left e) n c.rest c'.rest := by
  induction bound generalizing left c with
  | zero =>
    cases h
    exact ⟨0, hlevel, .noLink k _ _⟩
  | succ bound ih =>
    rw [chainFrom_succ] at h
    split at h
    · cases h
      exact ⟨0, hlevel, .noLink k _ _⟩
    · next l rest hrest =>
      split at h
      · cases h
        exact ⟨0, hlevel, .noLink k _ _⟩
      · next operator hl =>
        split at h
        · cases h
        · next hroom =>
          obtain ⟨right, c₁, hright, hmore⟩ := Outcome.bind_eq_done_iff.1 h
          rw [Outcome.commit_eq_done_iff] at hright
          have hdeeper : c.level + 1 ≤ maxNesting := Nat.lt_of_not_le hroom
          have hlevel₁ : c₁.level = c.level + 1 := ho.level_eq hright
          obtain ⟨m, hm, hderives⟩ := hd _ _ _ hdeeper hright
          obtain ⟨n, hn, hlinks⟩ := ih (hlevel₁ ▸ hdeeper) hmore
          refine ⟨max m n + 1, ?_, hrest ▸ .link hl hderives hlinks⟩
          simp only at hm
          omega

private theorem Derived.chain (hd : Derived k.operand operand) (ho : Orderly operand) :
    Derived (.chain k) (chain k.operator? operand) := by
  intro c e c' hlevel h
  rw [chain_apply] at h
  obtain ⟨first, c₁, hfirst, hrest⟩ := Outcome.bind_eq_done_iff.1 h
  obtain ⟨e', c₂, hchain, hdone⟩ := Outcome.bind_eq_done_iff.1 hrest
  cases hdone
  have hlevel₁ : c₁.level = c.level := ho.level_eq hfirst
  obtain ⟨m, hm, hderives⟩ := hd _ _ _ hlevel hfirst
  obtain ⟨n, hn, hlinks⟩ := derives_chainFrom ho hd (hlevel₁ ▸ hlevel) hchain
  exact ⟨max m n, by omega, .chain hderives hlinks⟩

end Chain

section Grammar

variable {unary : Parser Expr} (hd : Derived .unary unary) (ho : Orderly unary)

include hd ho

private theorem Derived.expression : Derived (.chain .sum) (expression unary) := by
  have hproduct : Derived (.chain .product) (product unary) := Derived.chain (k := .product) hd ho
  exact Derived.chain (k := .sum) hproduct ho.chain

private theorem derives_moreItems {bound : Nat} {es : List Expr} {c c' : Cursor}
    (hlevel : c.level ≤ maxNesting) (h : moreItems (expression unary) bound c = .done es c') :
    ∃ n, c.level + n ≤ maxNesting ∧ Derives (.moreItems es) n c.rest c'.rest := by
  induction bound generalizing es c with
  | zero =>
    cases h
    exact ⟨0, hlevel, .noMore _⟩
  | succ bound ih =>
    simp only [moreItems] at h
    split at h
    · next span c₁ hcomma =>
      obtain ⟨hrest, hlevel₁⟩ := rest_of_acceptSymbol hcomma
      split at h
      · next item c₂ hitem =>
        obtain ⟨more, c₃, hmore, hdone⟩ := Outcome.bind_eq_done_iff.1 h
        cases hdone
        have hlevel₂ : c₂.level = c.level := (ho.expression.level_eq hitem).trans hlevel₁
        obtain ⟨m, hm, hderives⟩ := hd.expression ho _ _ _ (hlevel₁ ▸ hlevel) hitem
        obtain ⟨n, hn, hothers⟩ := ih (hlevel₂ ▸ hlevel) hmore
        exact ⟨max m n, by omega, hrest ▸ .more span hderives hothers⟩
      · cases h
        exact ⟨0, hlevel, .noMore _⟩
      · cases h
    · cases h
      exact ⟨0, hlevel, .noMore _⟩

private theorem derives_items {close : Symbol} {expected : Expected} {es : List Expr} {span : Span}
    {c c' : Cursor} (hlevel : c.level ≤ maxNesting)
    (h : items (expression unary) close expected c = .done (es, span) c') :
    ∃ n, c.level + n ≤ maxNesting ∧
      Derives (.items es) n c.rest (⟨.symbol close, span⟩ :: c'.rest) := by
  obtain ⟨found, c₁, hclose, hrest⟩ := bind_eq_done_iff.1 h
  cases found with
  | some span' =>
    cases hrest
    exact ⟨0, hlevel, (rest_of_acceptSymbol hclose).1 ▸ .noItems _⟩
  | none =>
    obtain rfl := eq_of_acceptSymbol_none hclose
    obtain ⟨first, c₂, hfirst, hrest⟩ := bind_eq_done_iff.1 hrest
    obtain ⟨more, c₃, hmore, hrest⟩ := bind_eq_done_iff.1 hrest
    obtain ⟨span', c₄, hspan, hpure⟩ := bind_eq_done_iff.1 hrest
    cases hpure
    have hlevel₂ : c₂.level = c₁.level := ho.expression.level_eq hfirst
    obtain ⟨m, hm, hderives⟩ := hd.expression ho _ _ _ hlevel hfirst
    obtain ⟨n, hn, hothers⟩ := derives_moreItems hd ho (hlevel₂ ▸ hlevel) hmore
    exact ⟨max m n, by omega, rest_of_expectSymbol hspan ▸ .items hderives hothers⟩

private theorem derived_primary : Derived .primary (primary unary) := by
  intro c e c' hlevel h
  unfold primary at h
  split at h
  · next value span rest hrest =>
    cases h
    exact ⟨0, hlevel, hrest ▸ .number value span rest⟩
  · next content span rest hrest =>
    cases h
    exact ⟨0, hlevel, hrest ▸ .text content span rest⟩
  · next name span rest hrest =>
    obtain ⟨found, c₁, hparen, hmore⟩ := bind_eq_done_iff.1 h
    cases found with
    | none =>
      obtain rfl := eq_of_acceptSymbol_none hparen
      cases hmore
      exact ⟨0, hlevel, hrest ▸ .reference name span rest⟩
    | some opening =>
      obtain ⟨⟨arguments, close⟩, c₂, hitems, hpure⟩ := bind_eq_done_iff.1 hmore
      cases hpure
      obtain ⟨hopening, hlevel₁⟩ := rest_of_acceptSymbol hparen
      obtain ⟨n, hn, hderives⟩ :=
        derives_items hd ho (hlevel₁ ▸ hlevel) (commit_eq_done_iff.1 hitems)
      simp only at hopening hlevel₁
      rw [hrest, hopening]
      exact ⟨n, hlevel₁ ▸ hn, .call name span opening close hderives⟩
  · next opening rest hrest =>
    obtain ⟨inner, c₁, hinner, hmore⟩ := bind_eq_done_iff.1 h
    obtain ⟨close, c₂, hclose, hpure⟩ := bind_eq_done_iff.1 hmore
    cases hpure
    have hclosing := rest_of_expectSymbol (commit_eq_done_iff.1 hclose)
    obtain ⟨n, hn, hderives⟩ := hd.expression ho { c with rest := rest } _ _ hlevel
      (commit_eq_done_iff.1 hinner)
    rw [hclosing] at hderives
    rw [hrest]
    exact ⟨n, hn, .group opening close hderives⟩
  · next opening rest hrest =>
    obtain ⟨⟨es, close⟩, c₁, hitems, hpure⟩ := bind_eq_done_iff.1 h
    cases hpure
    obtain ⟨n, hn, hderives⟩ :=
      derives_items (c := { c with rest := rest }) hd ho hlevel (commit_eq_done_iff.1 hitems)
    rw [hrest]
    exact ⟨n, hn, .vector opening close hderives⟩
  · cases h

private theorem derived_power : Derived .power (power unary) := by
  intro c e c' hlevel h
  obtain ⟨base, c₁, hbase, hbehind⟩ := bind_eq_done_iff.1 h
  obtain ⟨found, c₂, hcaret, hrest⟩ := bind_eq_done_iff.1 hbehind
  have hlevel₁ : c₁.level = c.level := ho.primary.level_eq hbase
  obtain ⟨m, hm, hderives⟩ := derived_primary hd ho _ _ _ hlevel hbase
  cases found with
  | none =>
    obtain rfl := eq_of_acceptSymbol_none hcaret
    cases hrest
    exact ⟨m, hm, .base hderives⟩
  | some span =>
    obtain ⟨exponent, c₃, hexponent, hpure⟩ := bind_eq_done_iff.1 hrest
    cases hpure
    obtain ⟨hnext, hlevel₂⟩ := rest_of_acceptSymbol hcaret
    rw [hnext] at hderives
    obtain ⟨n, hn, hderives'⟩ :=
      hd _ _ _ (hlevel₂.trans hlevel₁ ▸ hlevel) (commit_eq_done_iff.1 hexponent)
    exact ⟨max m n, by omega, .raised hderives hderives'⟩

private theorem derives_signed {e : Expr} {c c' : Cursor} (hlevel : c.level ≤ maxNesting)
    (h : signed unary c = .done e c') :
    ∃ n, c.level + n ≤ maxNesting ∧ Derives (.unary e) (n + 1) c.rest c'.rest := by
  obtain ⟨found, c₁, hsign, hrest⟩ := bind_eq_done_iff.1 h
  unfold accept at hsign
  split at hsign
  · cases hsign
    obtain ⟨n, hn, hderives⟩ := derived_power hd ho _ _ _ hlevel hrest
    exact ⟨n, hn, .unsigned hderives⟩
  · next l rest hl =>
    split at hsign
    · next sign hs =>
      cases hsign
      obtain ⟨operand, c₂, hoperand, hpure⟩ := bind_eq_done_iff.1 hrest
      cases hpure
      obtain ⟨n, hn, hderives⟩ :=
        hd { c with rest := rest } _ _ hlevel (commit_eq_done_iff.1 hoperand)
      rw [hl]
      exact ⟨n, hn, .sign hs hderives⟩
    · cases hsign
      obtain ⟨n, hn, hderives⟩ := derived_power hd ho _ _ _ hlevel hrest
      exact ⟨n, hn, .unsigned hderives⟩

end Grammar

private theorem derived_unaryWithin (budget : Nat) : Derived .unary (unaryWithin budget) := by
  induction budget with
  | zero =>
    intro c e c' _ h
    cases h
  | succ budget ih =>
    intro c e c' _ h
    change nested (signed (unaryWithin budget)) c = _ at h
    rw [nested_apply] at h
    split at h
    · cases h
    · next hroom =>
      have hdeeper : c.level + 1 ≤ maxNesting := Nat.lt_of_not_le hroom
      cases hsigned : signed (unaryWithin budget) { c with level := c.level + 1 } with
      | done a c₁ =>
        rw [hsigned] at h
        cases h
        obtain ⟨n, hn, hderives⟩ := derives_signed ih (orderly_unaryWithin budget) hdeeper hsigned
        simp only at hn
        exact ⟨n + 1, by omega, hderives⟩
      | refused cause c₁ => rw [hsigned] at h; cases h
      | halted cause c₁ => rw [hsigned] at h; cases h

private theorem derived_unary : Derived .unary unary :=
  fun c => derived_unaryWithin (maxNesting - c.level) c

private theorem isStatement_of_statement {s : Statement} {c c' : Cursor}
    (hlevel : c.level ≤ maxNesting) (h : statement c = .done s c') :
    ∃ n, c.level + n ≤ maxNesting ∧ IsStatement s n c.rest c'.rest := by
  have hexpression := derived_unary.expression orderly_unary
  unfold statement at h
  split at h
  · next name nameSpan equals rest hrest =>
    obtain ⟨e, c₁, he, hdone⟩ := Outcome.bind_eq_done_iff.1 h
    cases hdone
    obtain ⟨n, hn, hderives⟩ :=
      hexpression { c with rest := rest } _ _ hlevel (commit_eq_done_iff.1 he)
    rw [hrest]
    exact ⟨n, hn, .assign name nameSpan equals hderives⟩
  · obtain ⟨e, c₁, he, hdone⟩ := Outcome.bind_eq_done_iff.1 h
    cases hdone
    obtain ⟨n, hn, hderives⟩ := hexpression _ _ _ hlevel he
    exact ⟨n, hn, .expression hderives⟩

private theorem isProgram_of_behindSeparators {p : List Statement} {n : Nat} {ts : List Lexeme}
    (h : IsProgram p n (behindSeparators ts)) : IsProgram p n ts := by
  unfold behindSeparators at h
  induction ts with
  | nil => exact h
  | cons l rest ih =>
    rw [List.dropWhile_cons] at h
    split at h
    · next hl => exact .separator hl (ih h)
    · exact h

private theorem isProgram_of_statements {bound : Nat} {p : List Statement} {c c' : Cursor}
    (hlevel : c.level ≤ maxNesting) (hbound : c.rest.length < bound)
    (h : statements bound c = .done p c') :
    ∃ n, c.level + n ≤ maxNesting ∧ IsProgram p n c.rest := by
  induction bound generalizing p c with
  | zero => cases hbound
  | succ bound ih =>
    rw [statements_succ] at h
    have hdrop := length_behindSeparators_le c.rest
    split at h
    · next hempty =>
      cases h
      refine ⟨0, hlevel, isProgram_of_behindSeparators ?_⟩
      rw [List.isEmpty_iff.1 hempty]
      exact .nil
    · obtain ⟨s, c₁, hs, hmore⟩ := Outcome.bind_eq_done_iff.1 h
      have hlevel₁ : c₁.level = c.level :=
        orderly_statement.level_eq (c := { c with rest := behindSeparators c.rest }) hs
      have hshorter := orderly_statement.length_le hs
      obtain ⟨m, hm, hstatement⟩ :=
        isStatement_of_statement (c := { c with rest := behindSeparators c.rest }) hlevel hs
      unfold continueWith at hmore
      split at hmore
      · next hrest =>
        cases hmore
        rw [hrest] at hstatement
        exact ⟨m, hm, isProgram_of_behindSeparators (.last hstatement)⟩
      · next l rest hrest =>
        split at hmore
        · next hl =>
          obtain ⟨more, c₂, hothers, hdone⟩ := Outcome.bind_eq_done_iff.1 hmore
          cases hdone
          rw [hrest] at hstatement
          simp only [hrest, List.length_cons] at hshorter
          obtain ⟨n, hn, hprogram⟩ := ih (c := { c₁ with rest := rest }) (hlevel₁ ▸ hlevel)
            (by simp only; omega) hothers
          simp only at hm hn
          exact ⟨max m n, by omega, isProgram_of_behindSeparators (.cons hstatement hl hprogram)⟩
        · cases hmore

end Parser

/-- A program that is read derives from its tokens, within the nesting levels that there may be. -/
theorem isProgram_of_program {ls : List Lexeme} {p : List Statement} {c : Cursor}
    (h : Parser.program ⟨ls, 0⟩ = .done p c) : ∃ n ≤ maxNesting, IsProgram p n ls := by
  obtain ⟨n, hn, hderives⟩ :=
    Parser.isProgram_of_statements (Nat.zero_le _) (Nat.lt_succ_self _) h
  exact ⟨n, by simpa using hn, hderives⟩

theorem exists_isProgram_of_parse {source : String} {p : List Statement}
    (h : parse source = .ok p) :
    ∃ ls, tokenize source = .ok ls ∧ ∃ n ≤ maxNesting, IsProgram p n (significant ls) := by
  obtain ⟨ls, c, hls, hprogram⟩ := parse_eq_ok_iff.1 h
  exact ⟨ls, hls, isProgram_of_program hprogram⟩

end DiagramScope.Script
