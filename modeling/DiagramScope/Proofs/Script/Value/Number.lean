import DiagramScope.Proofs.Decimal.RoundTrip
import DiagramScope.Script.Value

/-!
Numbers as they are written in statements. Main statement: a finite number is written as a decimal
literal behind an optional sign, and what this stands for equals the number.
-/

set_option autoImplicit false
set_option relaxedAutoImplicit false

namespace DiagramScope.Script.Value

open Decimal (Binary64 Magnitude Spelled)

def isFiniteNumber (x : Float) : Bool :=
  match Binary64.ofFloat x with
  | .finite _ _ _ => true
  | _ => false

private theorem exists_of_isFiniteNumber {x : Float} (h : isFiniteNumber x = true) :
    ∃ negative mantissa exponent, Binary64.ofFloat x = .finite negative mantissa exponent := by
  unfold isFiniteNumber at h
  split at h
  · next negative mantissa exponent hx => exact ⟨negative, mantissa, exponent, hx⟩
  · cases h

/-- The text `text` of a number is a sign and the digits of a magnitude, which stand for the number
up to the sign of zero. -/
structure NumberSpelled (text : List Char) (x : Float) (negative : Bool) (y : Float)
    (whole fraction : List Char) : Prop where
  text_eq : text = Decimal.signed negative (Decimal.pointed whole fraction)
  spelled : Spelled (Decimal.pointed whole fraction) y whole fraction
  equal : (x == if negative then -y else y) = true

private theorem integerText_eq (n : Int) :
    integerText n = Decimal.signed (decide (n < 0)) (Decimal.natDigits n.natAbs) := by
  cases n with
  | ofNat n => rfl
  | negSucc n =>
    have hneg : decide (Int.negSucc n < 0) = true := decide_eq_true (Int.negSucc_lt_zero n)
    rw [hneg]
    rfl

private theorem exact_of_toInt? {negative : Bool} {mantissa : Nat} {exponent n : Int}
    (h : (Binary64.finite negative mantissa exponent).toInt? = some n) :
    n.natAbs * (Binary64.quotient mantissa exponent).2 = (Binary64.quotient mantissa exponent).1 ∧
      (n ≠ 0 → decide (n < 0) = negative) := by
  unfold Binary64.toInt? at h
  simp only at h
  generalize Binary64.quotient mantissa exponent = quotient at h ⊢
  obtain ⟨num, den⟩ := quotient
  simp only at h ⊢
  split at h
  · next hmod =>
    have hexact : num / den * den = num := Nat.div_mul_cancel (Nat.dvd_of_mod_eq_zero hmod)
    generalize num / den = whole at h hexact
    have hn := Option.some.inj h
    cases negative with
    | true =>
      rw [if_pos rfl] at hn
      have habs : n.natAbs = whole := by omega
      exact ⟨habs ▸ hexact, fun hne => decide_eq_true (by omega)⟩
    | false =>
      rw [if_neg Bool.false_ne_true] at hn
      have habs : n.natAbs = whole := by omega
      exact ⟨habs ▸ hexact, fun hne => decide_eq_false (by omega)⟩
  · cases h

private theorem zero_beq_neg_zero : (-Float.ofBits 0 == Float.ofBits 0) = true := by decide

section Finite

variable {x : Float} {negative : Bool} {mantissa : Nat} {exponent : Int}

private theorem magnitude_spelled (hx : Binary64.ofFloat x = .finite negative mantissa exponent) :
    ∃ y whole fraction,
      NumberSpelled (Decimal.signed negative (Decimal.magnitude mantissa exponent)) x negative y
        whole fraction := by
  obtain ⟨m, rfl, rfl, hvalue⟩ := Decimal.eq_of_ofFloat hx
  obtain ⟨whole, fraction, hspelled⟩ := m.spelled
  have hself := Decimal.beq_self_of_ofFloat hx
  refine ⟨m.toFloat, whole, fraction, congrArg _ hspelled.text_eq, ?_, hvalue ▸ hself⟩
  exact hspelled.text_eq ▸ hspelled

private theorem integerText_spelled (hx : Binary64.ofFloat x = .finite negative mantissa exponent)
    {n : Int} (hn : (Binary64.finite negative mantissa exponent).toInt? = some n) :
    ∃ y, NumberSpelled (integerText n) x (decide (n < 0)) y (Decimal.natDigits n.natAbs) [] := by
  obtain ⟨m, rfl, rfl, hvalue⟩ := Decimal.eq_of_ofFloat hx
  obtain ⟨hexact, hsign⟩ := exact_of_toInt? hn
  refine ⟨m.toFloat, integerText_eq n, m.spelled_natDigits hexact, ?_⟩
  by_cases hzero : n = 0
  · have hnone : m.mantissa = 0 := by
      rw [hzero, Decimal.quotient_eq] at hexact
      refine (Nat.mul_eq_zero.1 (hexact.symm.trans (Nat.zero_mul _))).resolve_right ?_
      exact (Decimal.quotient_one_pos m.exponent).ne'
    rw [hzero, hvalue, m.toFloat_of_mantissa hnone]
    cases negative
    · decide
    · exact zero_beq_neg_zero
  · have hself := Decimal.beq_self_of_ofFloat hx
    rw [hsign hzero]
    exact hvalue ▸ hself

end Finite

/-- The text of a finite number. -/
theorem numberText_spelled {x : Float} (h : isFiniteNumber x = true) :
    ∃ negative y whole fraction, NumberSpelled (numberText x) x negative y whole fraction := by
  obtain ⟨negative, mantissa, exponent, hx⟩ := exists_of_isFiniteNumber h
  unfold numberText
  simp only [hx]
  split
  · next n hn =>
    split
    · obtain ⟨y, hspelled⟩ := integerText_spelled hx hn
      exact ⟨decide (n < 0), y, _, _, hspelled⟩
    · exact ⟨negative, magnitude_spelled hx⟩
  · exact ⟨negative, magnitude_spelled hx⟩

theorem isLineEnd_of_isDigit {c : Char} (h : c.isDigit = true) :
    Text.Quoted.isLineEnd c = false := by
  have hfeed : c ≠ '\n' := by
    rintro rfl
    cases h
  have hreturn : c ≠ '\r' := by
    rintro rfl
    cases h
  simp [Text.Quoted.isLineEnd, hfeed, hreturn]

private theorem mem_pointed {c : Char} {whole fraction : List Char}
    (h : c ∈ Decimal.pointed whole fraction) : c ∈ whole ∨ c = '.' ∨ c ∈ fraction := by
  unfold Decimal.pointed at h
  split at h
  · exact Or.inl h
  · simpa using h

theorem isLineEnd_numberText (x : Float) :
    ∀ c ∈ numberText x, Text.Quoted.isLineEnd c = false := by
  intro c hc
  cases hfinite : isFiniteNumber x with
  | true =>
    obtain ⟨negative, y, whole, fraction, htext, hspelled, -⟩ := numberText_spelled hfinite
    have hdigits : c = '-' ∨ c ∈ Decimal.pointed whole fraction := by
      rw [htext] at hc
      cases negative with
      | true => exact List.mem_cons.1 hc
      | false => exact Or.inr hc
    rcases hdigits with rfl | hdigits
    · rfl
    · rcases mem_pointed hdigits with hwhole | rfl | hfraction
      · exact isLineEnd_of_isDigit (hspelled.isDigit_whole c hwhole)
      · rfl
      · exact isLineEnd_of_isDigit (hspelled.isDigit_fraction c hfraction)
  | false =>
    have hword : c ∈ ['N', 'a', 'n'] ∨ c ∈ ['-', 'I', 'n', 'f'] := by
      unfold numberText at hc
      unfold isFiniteNumber at hfinite
      dsimp only at hc
      split at hc
      · exact Or.inl hc
      · next negative _ =>
        cases negative with
        | true => exact Or.inr hc
        | false => exact Or.inr (List.mem_cons_of_mem _ hc)
      · next hx =>
        rw [hx] at hfinite
        cases hfinite
    have hplain : ∀ d ∈ ['N', 'a', 'n'] ++ ['-', 'I', 'n', 'f'],
        Text.Quoted.isLineEnd d = false := by simp [Text.Quoted.isLineEnd]
    exact hplain c (List.mem_append.2 hword)

end DiagramScope.Script.Value
