import DiagramScope.Proofs.Script.Parser.Settling
import DiagramScope.Proofs.Script.Parser.Soundness

/-!
What is in the grammar is read. A derived phrase is read up to its end where its nesting levels are
left, and reading it halts for lack of levels where they are not. Main statement: the programs that
are read are exactly those that the grammar derives within the levels that there may be, each with
its only tree, and any other program of the grammar is refused for its nesting.
-/

set_option autoImplicit false
set_option relaxedAutoImplicit false

namespace DiagramScope.Script

open Grammar (Phrase Derives IsStatement IsProgram Stops starts)

namespace Parser

open Outcome (settles_done)

def operandOf (unary : Parser Expr) : Grammar.Chain → Parser Expr
  | .sum => product unary
  | .product => unary

/-- What reading a phrase comes to at a level from which on all levels that are left may be used:
with these levels its parser settles on the tree. -/
def Reads (unary : Parser Expr) (level : Nat) (φ : Phrase) (n : Nat) (ts rest : List Lexeme) :
    Prop :=
  match φ with
  | .chain k e =>
    (chain k.operator? (operandOf unary k) ⟨ts, level⟩).Settles level n e ⟨rest, level⟩
  | .links k left e => ∀ bound start, ts.length ≤ bound →
    ((chainFrom k.operator? (operandOf unary k) bound left ⟨ts, level⟩).bind
      fun e c => .done e { c with level := start }).Settles level n e ⟨rest, start⟩
  | .unary e => (unary ⟨ts, level⟩).Settles level n e ⟨rest, level⟩
  | .power e => (power unary ⟨ts, level⟩).Settles level n e ⟨rest, level⟩
  | .primary e => (primary unary ⟨ts, level⟩).Settles level n e ⟨rest, level⟩
  | .items es => ∀ close expected span rest', rest = ⟨.symbol close, span⟩ :: rest' →
    starts (.symbol close) = false →
      (items (expression unary) close expected ⟨ts, level⟩).Settles level n (es, span)
        ⟨rest', level⟩
  | .moreItems es => ∀ bound, ts.length ≤ bound →
    (moreItems (expression unary) bound ⟨ts, level⟩).Settles level n es ⟨rest, level⟩

private theorem Reads.operand {unary : Parser Expr} {level n : Nat} {k : Grammar.Chain} {e : Expr}
    {ts rest : List Lexeme} (h : Reads unary level (k.operand e) n ts rest) :
    (operandOf unary k ⟨ts, level⟩).Settles level n e ⟨rest, level⟩ := by
  cases k <;> exact h

/-- Every derived phrase is read, given that nothing follows that continues it. -/
theorem reads_of_derives {φ : Phrase} {n : Nat} {ts rest : List Lexeme} (h : Derives φ n ts rest)
    (hrest : Stops φ rest) {unary : Parser Expr} {level : Nat} (ha : Ample unary level)
    (hlevel : level ≤ maxNesting) : Reads unary level φ n ts rest := by
  induction h generalizing unary level with
  | @chain k first e m n ts us rest hfirst hlinks ihFirst ihLinks =>
    have hstops := hlinks.stops_operand hrest first
    exact settles_chain (ihFirst hstops ha hlevel).operand
      (ihLinks hrest ha hlevel us.length level (Nat.le_refl _))
  | noLink k e rest =>
    intro bound start _
    have hchain : Stops (.chain k e) rest := hrest
    exact settles_noLink hchain.operator?_eq_none hlevel
  | @link k left right e operator l m n ts us rest hl hright hlinks ihRight ihLinks =>
    intro bound start hbound
    obtain ⟨bound, rfl⟩ : ∃ b, bound = b + 1 := ⟨bound - 1, by simp at hbound; omega⟩
    have hstops := hlinks.stops_operand hrest right
    have hlength : us.length ≤ bound :=
      Nat.le_trans hright.suffix.length_le (Nat.le_of_succ_le_succ hbound)
    have hdeeper : Ample unary (level + 1) := ha.mono (Nat.le_succ level)
    exact settles_link hl (fun hroom => (ihRight hstops hdeeper hroom).operand)
      fun hroom => ihLinks hrest hdeeper hroom bound start hlength
  | sign hl hoperand ih =>
    obtain ⟨inner, hinner, hunary⟩ := ha.exists_nested
    change (unary ⟨_, level⟩).Settles _ _ _ _
    rw [hunary]
    exact settles_nested fun hroom => settles_sign hl (ih hrest hinner hroom)
  | unsigned h ih =>
    obtain ⟨l, us, rfl, hl⟩ := h.exists_unsigned
    obtain ⟨inner, hinner, hunary⟩ := ha.exists_nested
    change (unary ⟨l :: us, level⟩).Settles _ _ _ _
    rw [hunary]
    exact settles_nested fun hroom => settles_unsigned hl (ih hrest hinner hroom)
  | @base e n ts rest h ih =>
    have hstops : Stops (.primary e) rest := hrest.mono (List.subset_cons_self _ _)
    exact settles_base (hrest.ne List.mem_cons_self) (ih hstops ha hlevel)
  | @raised base exponent caret m n ts us rest hbase hexponent ihBase ihExponent =>
    have hstops : Stops (.primary base) (⟨.symbol .caret, caret⟩ :: us) :=
      Grammar.stops_symbol (by simp [Phrase.continuations]) caret us
    exact settles_raised (ihBase hstops ha hlevel) (ihExponent hrest ha hlevel)
  | number value span rest => exact settles_done hlevel _ _
  | text content span rest => exact settles_done hlevel _ _
  | reference name span rest =>
    exact settles_reference (hrest.ne (by simp [Phrase.continuations])) hlevel name span
  | @call es n ts rest name nameSpan opening close h ih =>
    have hstops : Stops (.items es) (⟨.symbol .rightParen, close⟩ :: rest) :=
      Grammar.stops_closing (by decide) close rest
    exact settles_call (ih hstops ha hlevel _ _ close rest rfl rfl) name nameSpan opening
  | @vector es n ts rest opening close h ih =>
    have hstops : Stops (.items es) (⟨.symbol .rightBracket, close⟩ :: rest) :=
      Grammar.stops_closing (by decide) close rest
    exact settles_vector (ih hstops ha hlevel _ _ close rest rfl rfl) opening
  | @group e n ts rest opening close h ih =>
    have hstops : Stops (.chain .sum e) (⟨.symbol .rightParen, close⟩ :: rest) :=
      Grammar.stops_closing (by decide) close rest
    exact settles_group (ih hstops ha hlevel) opening
  | noItems rest =>
    rintro close expected span rest' rfl _
    rw [items_nil]
    exact settles_done hlevel _ _
  | @items e es m n ts us rest hfirst hmore ihFirst ihMore =>
    rintro close expected span rest' rfl hclose
    obtain ⟨l, us', rfl, hl⟩ := hfirst.exists_starts trivial
    have hopen : Next (· ≠ .symbol close) (l :: us') := by
      refine .cons ?_ us'
      intro heq
      rw [heq, hclose] at hl
      cases hl
    exact settles_items hopen (ihFirst (hmore.stops_item hrest e) ha hlevel)
      (ihMore hrest ha hlevel us.length (Nat.le_refl _)) expected
  | noMore rest =>
    intro bound _
    rw [moreItems_of_not_comma (hrest.ne (by simp [Phrase.continuations]))]
    exact settles_done hlevel _ _
  | @more e es m n ts us rest comma hitem hmore ihItem ihMore =>
    intro bound hbound
    obtain ⟨bound, rfl⟩ : ∃ b, bound = b + 1 := ⟨bound - 1, by simp at hbound; omega⟩
    have hlength : us.length ≤ bound :=
      Nat.le_trans hitem.suffix.length_le (Nat.le_of_succ_le_succ hbound)
    exact settles_more (ihItem (hmore.stops_item hrest e) ha hlevel)
      (ihMore hrest ha hlevel bound hlength) comma

section Statements

variable {e : Expr} {s : Statement} {p : List Statement} {level n : Nat} {ts rest : List Lexeme}

private theorem settles_expression (h : Derives (.chain .sum e) n ts rest)
    (hrest : Stops (.chain .sum e) rest) (hlevel : level ≤ maxNesting) :
    (expression unary ⟨ts, level⟩).Settles level n e ⟨rest, level⟩ :=
  reads_of_derives h hrest (ample_unary level) hlevel

/-- An expression at the end of a statement is no assignment: its name alone is an expression in
front of an equals sign, and an expression ends in one place only. -/
theorem not_assignment_of_derives (h : Derives (.chain .sum e) n ts rest)
    (hrest : Next (·.isSeparator = true) rest) :
    ¬ ∃ name nameSpan equals us,
      ts = ⟨.name name, nameSpan⟩ :: ⟨.symbol .equals, equals⟩ :: us := by
  rintro ⟨name, nameSpan, equals, us, rfl⟩
  have hname : Derives (.unary (.reference name nameSpan)) 1
      (⟨.name name, nameSpan⟩ :: ⟨.symbol .equals, equals⟩ :: us)
      (⟨.symbol .equals, equals⟩ :: us) :=
    .unsigned (.base (.reference name nameSpan _))
  have hread := settles_expression hname.sum_of_unary (Grammar.stops_closing (by decide) equals us)
    (Nat.zero_le maxNesting)
  have hread' := settles_expression h (Grammar.stops_of_separators hrest) (Nat.zero_le maxNesting)
  obtain ⟨-, -, hend⟩ := hread.eq hread' (by decide)
  have hequals := hrest _ _ (Cursor.mk.inj hend).1.symm
  cases hequals

private theorem settles_statement (h : IsStatement s n ts rest)
    (hrest : Next (·.isSeparator = true) rest) (hlevel : level ≤ maxNesting) :
    (statement ⟨ts, level⟩).Settles level n s ⟨rest, level⟩ := by
  cases h with
  | assign name nameSpan equals h =>
    exact (settles_expression h (Grammar.stops_of_separators hrest) hlevel).commit.map _
  | expression h =>
    rw [statement_of_not_assignment (not_assignment_of_derives h hrest)]
    exact (settles_expression h (Grammar.stops_of_separators hrest) hlevel).map _

private theorem settles_first {b : Nat} (h : IsStatement s n ts rest)
    (hrest : Next (·.isSeparator = true) rest)
    (hmore : (continueWith program s ⟨rest, 0⟩).Settles 0 b p ⟨[], 0⟩) :
    (program ⟨ts, 0⟩).Settles 0 (max n b) p ⟨[], 0⟩ := by
  obtain ⟨l, us, rfl, hl⟩ := h.exists_starts
  have hstart : behindSeparators (l :: us) = l :: us := by
    unfold behindSeparators
    rw [List.dropWhile_cons, Grammar.isSeparator_of_starts hl]
    rfl
  rw [program_of_behindSeparators_cons (c := ⟨l :: us, 0⟩) hstart]
  exact (settles_statement h hrest (Nat.zero_le _)).bind hmore

theorem settles_program (h : IsProgram p n ts) : (program ⟨ts, 0⟩).Settles 0 n p ⟨[], 0⟩ := by
  induction h with
  | nil => exact settles_done (Nat.zero_le _) _ _
  | @separator p n l ts hl h ih =>
    have hskip : program ⟨l :: ts, 0⟩ = program ⟨ts, 0⟩ :=
      program_eq_of_behindSeparators (by simp [behindSeparators, hl])
    rw [hskip]
    exact ih
  | @last s n ts h =>
    have hmore : (continueWith program s ⟨[], 0⟩).Settles 0 0 [s] ⟨[], 0⟩ :=
      settles_done (Nat.zero_le _) _ _
    have hend : Next (·.isSeparator = true) [] := by
      intro _ _ hnil
      cases hnil
    have hread := settles_first h hend hmore
    rw [Nat.max_zero] at hread
    exact hread
  | @cons s p m n l ts us hfirst hl hmore ih =>
    refine settles_first hfirst (.cons hl us) ?_
    unfold continueWith
    simp only [hl, if_true]
    exact ih.map (s :: ·)

end Statements

end Parser

private theorem parseLexemes_of_halted {ls : List Lexeme} {c : Cursor}
    (h : Parser.program ⟨ls, 0⟩ = .halted .nesting c) (length : Nat) :
    ∃ span, parseLexemes ls length = .error (.nesting span) := by
  unfold Parser.program at h
  unfold parseLexemes
  rw [h]
  obtain ⟨rest, level⟩ := c
  cases rest <;> exact ⟨_, rfl⟩

/-- The parser accepts exactly the grammar. Tokens are read as a program exactly if the grammar
derives it from them within the nesting levels that there may be; the grammar then derives no other
program from them; and tokens from which it derives a program with more levels are refused for
that. -/
theorem parses_exactly_grammar (ls : List Lexeme) (length : Nat) :
    (∀ p, parseLexemes ls length = .ok p ↔ ∃ n ≤ maxNesting, IsProgram p n ls) ∧
      (∀ p, parseLexemes ls length = .ok p → ∀ p' n, IsProgram p' n ls → p' = p) ∧
      ∀ p n, IsProgram p n ls → maxNesting < n →
        ∃ fault, parseLexemes ls length = .error fault ∧
          fault.diagnostic.code.map Code.text = some "E102" := by
  have hcomplete {p : List Statement} {n : Nat} (h : IsProgram p n ls) (hn : n ≤ maxNesting) :
      parseLexemes ls length = .ok p := by
    have hread := (Parser.settles_program h).done (by omega)
    exact parseLexemes_eq_ok_iff.2 ⟨_, hread⟩
  have hdeep {p : List Statement} {n : Nat} (h : IsProgram p n ls) (hn : maxNesting < n) :
      ∃ span, parseLexemes ls length = .error (.nesting span) := by
    obtain ⟨c, hc⟩ := (Parser.settles_program h).halted (by omega)
    exact parseLexemes_of_halted hc length
  refine ⟨fun p => ⟨fun hparse => ?_, fun ⟨n, hn, h⟩ => hcomplete h hn⟩,
    fun p hparse p' n h => ?_, fun p n h hn => ?_⟩
  · obtain ⟨c, hprogram⟩ := parseLexemes_eq_ok_iff.1 hparse
    exact isProgram_of_program hprogram
  · by_cases hn : n ≤ maxNesting
    · exact Except.ok.inj ((hcomplete h hn).symm.trans hparse)
    · obtain ⟨span, herror⟩ := hdeep h (Nat.lt_of_not_le hn)
      cases hparse.symm.trans herror
  · obtain ⟨span, herror⟩ := hdeep h hn
    exact ⟨_, herror, rfl⟩

def signedName (signs : Nat) : List Lexeme :=
  List.replicate signs ⟨.symbol .minus, .atOffset 0⟩ ++ [⟨.name "a", .atOffset 0⟩]

private theorem exists_isProgram_signedName (signs : Nat) :
    ∃ p, IsProgram p (signs + 1) (signedName signs) := by
  obtain ⟨e, he⟩ : ∃ e, Derives (.unary e) (signs + 1) (signedName signs) [] := by
    induction signs with
    | zero => exact ⟨_, .unsigned (.base (.reference "a" _ []))⟩
    | succ signs ih =>
      obtain ⟨e, he⟩ := ih
      exact ⟨_, .sign (l := ⟨.symbol .minus, .atOffset 0⟩) (show _ = some Sign.minus from rfl) he⟩
  exact ⟨_, .last (.expression he.sum_of_unary)⟩

/-- One sign decides. -/
theorem parses_exactly_grammar_signs :
    (∃ p, parseLexemes (signedName 127) 128 = .ok p) ∧
      ∃ fault, parseLexemes (signedName 128) 129 = .error fault ∧
        fault.diagnostic.code.map Code.text = some "E102" := by
  obtain ⟨p, hp⟩ := exists_isProgram_signedName 127
  obtain ⟨q, hq⟩ := exists_isProgram_signedName 128
  obtain ⟨haccepts, -, -⟩ := parses_exactly_grammar (signedName 127) 128
  obtain ⟨-, -, hdeep⟩ := parses_exactly_grammar (signedName 128) 129
  exact ⟨⟨p, (haccepts p).2 ⟨128, by decide, hp⟩⟩, hdeep q 129 hq (by decide)⟩

end DiagramScope.Script
