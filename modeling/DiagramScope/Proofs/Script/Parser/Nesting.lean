import DiagramScope.Proofs.Script.Parser.Soundness
import DiagramScope.Proofs.Script.Syntax.Path

/-!
How deep the trees that the parser builds are. The nesting levels bound the turns of a path that do
not lead into a left operand: the operators of a chain enter levels of their own, but none of them
is charged to the operands on its left. Main statement: on every path at most `maxNesting` nodes are
passed otherwise than into a left operand, and at most `maxNesting * (maxNesting + 1) - 1` in all.
-/

set_option autoImplicit false
set_option relaxedAutoImplicit false

namespace DiagramScope.Script

namespace Parser

section Length

variable {levels levels' : Nat}

/-- The longest path of a signed expression for which some levels are left. -/
def signedLength (levels : Nat) : Nat := levels * (levels - 1) + 1

def expressionLength (levels : Nat) : Nat := levels * (levels + 1) - 1

private theorem signedLength_succ (levels : Nat) :
    signedLength (levels + 1) = levels * levels + levels + 1 := by
  unfold signedLength
  rw [Nat.add_sub_cancel, Nat.succ_mul]

private theorem expressionLength_eq (levels : Nat) :
    expressionLength levels = levels * levels + levels - 1 := by
  unfold expressionLength
  rw [Nat.mul_succ]

private theorem signedLength_mono (h : levels ≤ levels') :
    signedLength levels ≤ signedLength levels' :=
  Nat.succ_le_succ (Nat.mul_le_mul h (by omega))

private theorem expressionLength_mono (h : levels ≤ levels') :
    expressionLength levels ≤ expressionLength levels' :=
  Nat.sub_le_sub_right (Nat.mul_le_mul h (Nat.succ_le_succ h)) 1

private theorem signedLength_le (levels : Nat) : signedLength levels ≤ levels * levels + 1 :=
  Nat.succ_le_succ (Nat.mul_le_mul_left levels (Nat.sub_le levels 1))

end Length

end Parser

namespace Grammar

open DiagramScope.Script.Parser (signedLength expressionLength signedLength_succ expressionLength_eq
  signedLength_mono expressionLength_mono signedLength_le)

def Chain.operandLength : Chain → Nat → Nat
  | sum => fun levels => signedLength levels + (levels - 1)
  | product => signedLength

private theorem Chain.operandLength_mono (k : Chain) {levels levels' : Nat} (h : levels ≤ levels') :
    k.operandLength levels ≤ k.operandLength levels' := by
  have hsigned := signedLength_mono h
  cases k with
  | sum =>
    simp only [operandLength]
    omega
  | product => exact hsigned

/-- Whether the tree of a phrase fits into its levels and into a length given for them. The joined
operands of a chain fit with one node more for each operator, of which there are fewer than
levels. -/
def Phrase.Fits (n : Nat) : Phrase → Prop
  | chain k e => 0 < n ∧ e.Fits n (k.operandLength n + (n - 1))
  | links k left e => ∀ levels operators, operators < levels → operators + n ≤ levels →
    left.Fits levels (k.operandLength levels + operators) →
      e.Fits levels (k.operandLength levels + (levels - 1))
  | unary e => 0 < n ∧ e.Fits n (signedLength n)
  | power e => e.Fits (n + 1) (signedLength (n + 1))
  | primary e => e.Fits (n + 1) (expressionLength n + 1)
  | items es => ∀ e ∈ es, e.Fits n (expressionLength n)
  | moreItems es => ∀ e ∈ es, e.Fits n (expressionLength n)

section Rules

variable {k : Chain} {left right e base exponent : Expr} {es : List Expr} {m n : Nat}

private theorem fits_operand (h : (k.operand e).Fits n) : 0 < n ∧ e.Fits n (k.operandLength n) := by
  cases k <;> exact h

private theorem fits_chain (hfirst : (k.operand left).Fits m)
    (hlinks : (Phrase.links k left e).Fits n) : (Phrase.chain k e).Fits (max m n) := by
  obtain ⟨hm, hleft⟩ := fits_operand hfirst
  have hle : m ≤ max m n := Nat.le_max_left m n
  have hpos : 0 < max m n := Nat.lt_of_lt_of_le hm hle
  refine ⟨hpos, hlinks _ 0 hpos (by omega) ?_⟩
  exact hleft.mono hle (k.operandLength_mono hle)

/-- A right operand has ever fewer levels, and the tree grows by one operator. -/
theorem fits_link (hright : (k.operand right).Fits m) (operator : Operator)
    (hlinks : (Phrase.links k (.joined operator left right) e).Fits n) :
    (Phrase.links k left e).Fits (max m n + 1) := by
  intro levels operators hless hlevels hleft
  obtain ⟨hm, hright⟩ := fits_operand hright
  obtain ⟨levels, rfl⟩ : ∃ l, levels = l + 1 := ⟨levels - 1, by omega⟩
  have hlength : k.operandLength m ≤ k.operandLength (levels + 1) :=
    k.operandLength_mono (by omega)
  have hright' : right.Fits levels (k.operandLength (levels + 1) + operators) :=
    hright.mono (by omega) (by omega)
  exact hlinks (levels + 1) (operators + 1) (by omega) (by omega)
    (Expr.fits_joined hleft hright' operator)

private theorem fits_sum (h : (Phrase.chain .sum e).Fits n) : e.Fits n (expressionLength n) := by
  obtain ⟨hn, hfits⟩ := h
  refine hfits.mono (Nat.le_refl n) ?_
  obtain ⟨n, rfl⟩ : ∃ b, n = b + 1 := ⟨n - 1, by omega⟩
  simp only [Chain.operandLength]
  rw [signedLength_succ, expressionLength_eq, Nat.succ_mul, Nat.mul_succ]
  omega

private theorem fits_raised (hbase : (Phrase.primary base).Fits m)
    (hexponent : (Phrase.unary exponent).Fits n) :
    (Phrase.power (.joined .power base exponent)).Fits (max m n) := by
  obtain ⟨hn, hexponent⟩ := hexponent
  have hm : m ≤ max m n := Nat.le_max_left m n
  have hn' : n ≤ max m n := Nat.le_max_right m n
  generalize max m n = levels at hm hn' ⊢
  have hlength : expressionLength m + 1 ≤ levels * levels + levels := by
    have hmono := expressionLength_mono hm
    rw [expressionLength_eq levels] at hmono
    omega
  have hlength' : signedLength n ≤ levels * levels + levels := by
    have hmono := signedLength_mono hn'
    have hle := signedLength_le levels
    omega
  change Expr.Fits (levels + 1) (signedLength (levels + 1)) _
  rw [signedLength_succ]
  have hbase : base.Fits (levels + 1) (levels * levels + levels) :=
    Expr.Fits.mono hbase (Nat.succ_le_succ hm) hlength
  exact Expr.fits_joined hbase (hexponent.mono hn' hlength') .power

private theorem fits_items (hfirst : (Phrase.chain .sum e).Fits m) (hmore : ∀ e ∈ es, e.Fits n
    (expressionLength n)) : ∀ e' ∈ e :: es, e'.Fits (max m n) (expressionLength (max m n)) := by
  have hm : m ≤ max m n := Nat.le_max_left m n
  have hn : n ≤ max m n := Nat.le_max_right m n
  refine List.forall_mem_cons.2 ⟨(fits_sum hfirst).mono hm (expressionLength_mono hm), ?_⟩
  exact fun e' he' => (hmore e' he').mono hn (expressionLength_mono hn)

end Rules

private theorem fits_of_derives {φ : Phrase} {n : Nat} {ts rest : List Lexeme}
    (h : Derives φ n ts rest) : φ.Fits n := by
  induction h with
  | chain _ _ ihFirst ihLinks => exact fits_chain ihFirst ihLinks
  | noLink =>
    intro levels operators hless _ hleft
    exact hleft.mono (Nat.le_refl levels) (by omega)
  | link _ _ _ ihRight ihLinks => exact fits_link ihRight _ ihLinks
  | @sign sign l operand n ts rest hl hoperand ih =>
    obtain ⟨hn, hfits⟩ := ih
    refine ⟨Nat.succ_pos _, (Expr.fits_signed hfits _ _).mono (Nat.le_refl _) ?_⟩
    have hle := signedLength_le n
    rw [signedLength_succ]
    omega
  | unsigned _ ih => exact ⟨Nat.succ_pos _, ih⟩
  | @base e n ts rest h ih =>
    refine Expr.Fits.mono ih (Nat.le_refl _) ?_
    rw [expressionLength_eq, signedLength_succ]
    omega
  | raised _ _ ihBase ihExponent => exact fits_raised ihBase ihExponent
  | number => exact (Expr.fits_number _ _).mono (Nat.zero_le _) (Nat.zero_le _)
  | text => exact (Expr.fits_text _ _).mono (Nat.zero_le _) (Nat.zero_le _)
  | reference => exact (Expr.fits_reference _ _).mono (Nat.zero_le _) (Nat.zero_le _)
  | call _ _ _ _ _ ih => exact Expr.fits_call ih _ _ _
  | vector _ _ _ ih => exact Expr.fits_vector ih _
  | group _ _ _ ih =>
    have hinner := (fits_sum ih).mono (Nat.le_succ _) (Nat.le_succ _)
    exact Expr.fits_withSpan hinner _
  | noItems | noMore => exact nofun
  | items _ _ ihFirst ihMore => exact fits_items ihFirst ihMore
  | more _ _ _ ihItem ihMore => exact fits_items ihItem ihMore

private theorem fits_of_isStatement {s : Statement} {n : Nat} {ts rest : List Lexeme}
    (h : IsStatement s n ts rest) : s.value.Fits n (expressionLength n) := by
  cases h with
  | assign _ _ _ h => exact fits_sum (fits_of_derives h)
  | expression h => exact fits_sum (fits_of_derives h)

private theorem fits_of_isProgram {program : List Statement} {n : Nat} {ts : List Lexeme}
    (h : IsProgram program n ts) : ∀ s ∈ program, s.value.Fits n (expressionLength n) := by
  induction h with
  | nil => exact nofun
  | separator _ _ ih => exact ih
  | last h => exact List.forall_mem_singleton.2 (fits_of_isStatement h)
  | @cons s program m n l ts us hfirst hl hmore ih =>
    have hm : m ≤ max m n := Nat.le_max_left m n
    have hn : n ≤ max m n := Nat.le_max_right m n
    have hstatement := (fits_of_isStatement hfirst).mono hm (expressionLength_mono hm)
    refine List.forall_mem_cons.2 ⟨hstatement, fun s' hs' => ?_⟩
    exact (ih s' hs').mono hn (expressionLength_mono hn)

end Grammar

/-- What the nesting levels bound in every program that is read. -/
theorem fits_of_parse {source : String} {program : List Statement}
    (h : parse source = .ok program) {s : Statement} (hs : s ∈ program) :
    s.value.Fits maxNesting (maxNesting * (maxNesting + 1) - 1) := by
  obtain ⟨ls, -, n, hn, hprogram⟩ := exists_isProgram_of_parse h
  exact (Grammar.fits_of_isProgram hprogram s hs).mono hn (Parser.expressionLength_mono hn)

end DiagramScope.Script
