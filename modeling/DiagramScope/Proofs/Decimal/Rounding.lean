import DiagramScope.Decimal.Rounding
import DiagramScope.Decimal.Shortest
import DiagramScope.Proofs.Decimal.Word
import Mathlib.Tactic.Ring

/-!
Correctness of rounding. Main statement: a quotient in the rounding interval of a finite magnitude
is rounded to this magnitude.
-/

set_option autoImplicit false
set_option relaxedAutoImplicit false

namespace DiagramScope.Decimal

private theorem roundHalfEven_eq {num den n : Nat} (hden : 0 < den)
    (hlow : 2 * (n * den) ≤ 2 * num + den) (hhigh : 2 * num ≤ 2 * (n * den) + den)
    (htie : n % 2 = 0 ∨ 2 * (n * den) < 2 * num + den ∧ 2 * num < 2 * (n * den) + den) :
    roundHalfEven num den = n := by
  have hnum : den * (num / den) + num % den = num := Nat.div_add_mod num den
  have hrest : num % den < den := Nat.mod_lt num hden
  unfold roundHalfEven
  simp only
  generalize num / den = down at hnum ⊢
  generalize num % den = remainder at hnum hrest ⊢
  have hge : down ≤ n := by
    by_contra hlt
    have hmul : (n + 1) * den ≤ down * den := Nat.mul_le_mul_right den (by omega)
    rw [Nat.succ_mul, Nat.mul_comm down den] at hmul
    omega
  have hle : n ≤ down + 1 := by
    by_contra hlt
    have hmul : (down + 2) * den ≤ n * den := Nat.mul_le_mul_right den (by omega)
    rw [Nat.add_mul, Nat.mul_comm down den] at hmul
    omega
  obtain rfl | rfl : n = down ∨ n = down + 1 := by omega
  · rw [Nat.mul_comm n den] at hlow hhigh htie
    split
    · rfl
    · split
      · omega
      · split <;> omega
  · have hsucc : (down + 1) * den = den * down + den := by ring
    rw [hsucc] at hlow hhigh htie
    split
    · omega
    · split
      · rfl
      · split <;> omega

private theorem log2_div_eq {units den k : Nat} (hden : 0 < den)
    (hlow : Binary64.leadingBit * (den * 2 ^ k) ≤ units)
    (hhigh : units < 2 * Binary64.leadingBit * (den * 2 ^ k)) : (units / den).log2 = 52 + k := by
  have hpower : 2 ^ (52 + k) * den = Binary64.leadingBit * (den * 2 ^ k) := by
    rw [pow_add]
    unfold Binary64.leadingBit
    ring
  have hge : 2 ^ (52 + k) ≤ units / den := by
    rwa [Nat.le_div_iff_mul_le hden, hpower]
  have hlt : units / den < 2 ^ (52 + k + 1) := by
    rw [Nat.div_lt_iff_lt_mul hden]
    calc units < 2 * Binary64.leadingBit * (den * 2 ^ k) := hhigh
      _ = 2 * (2 ^ (52 + k) * den) := by rw [hpower, Nat.mul_assoc]
      _ = 2 ^ (52 + k + 1) * den := by rw [pow_succ']; ring
  have hpos : units / den ≠ 0 := (Nat.two_pow_pos _ |>.trans_le hge).ne'
  exact (Nat.log2_eq_iff hpos).2 ⟨hge, hlt⟩

namespace Magnitude

variable (m : Magnitude)

def interval : RoundingInterval := roundingInterval m.mantissa m.exponent

/-- Whether `num / den` rounds to the magnitude. Both sides are in quarters of a unit. -/
def Covers (num den : Nat) : Prop :=
  if m.interval.closed then
    m.interval.low * (den * 2 ^ m.shift) ≤ 4 * (num * unitsPerOne) ∧
      4 * (num * unitsPerOne) ≤ m.interval.high * (den * 2 ^ m.shift)
  else
    m.interval.low * (den * 2 ^ m.shift) < 4 * (num * unitsPerOne) ∧
      4 * (num * unitsPerOne) < m.interval.high * (den * 2 ^ m.shift)

theorem low_eq : m.interval.low =
    4 * m.mantissa - if m.mantissa = Binary64.leadingBit ∧ m.shift ≠ 0 then 1 else 2 := by
  have hshift : m.exponent ≠ -1074 ↔ m.shift ≠ 0 := by
    unfold exponent
    omega
  simp only [interval, roundingInterval, hshift]

theorem high_eq : m.interval.high = 4 * m.mantissa + 2 := rfl

private theorem closed_eq : m.interval.closed = decide (m.mantissa % 2 = 0) := rfl

private theorem near_of_covers {num den : Nat} (h : m.Covers num den) :
    2 * (m.mantissa * (den * 2 ^ m.shift)) ≤ 2 * (num * unitsPerOne) + den * 2 ^ m.shift ∧
      2 * (num * unitsPerOne) ≤ 2 * (m.mantissa * (den * 2 ^ m.shift)) + den * 2 ^ m.shift ∧
        (m.mantissa % 2 = 0 ∨
          2 * (m.mantissa * (den * 2 ^ m.shift)) < 2 * (num * unitsPerOne) + den * 2 ^ m.shift ∧
            2 * (num * unitsPerOne) <
              2 * (m.mantissa * (den * 2 ^ m.shift)) + den * 2 ^ m.shift) := by
  unfold Covers at h
  rw [high_eq, closed_eq] at h
  generalize den * 2 ^ m.shift = unit at h ⊢
  generalize num * unitsPerOne = units at h ⊢
  have hlow : 4 * (m.mantissa * unit) ≤ m.interval.low * unit + 2 * unit := by
    have hwide : 4 * m.mantissa ≤ m.interval.low + 2 := by
      rw [low_eq]
      split <;> omega
    calc 4 * (m.mantissa * unit) = 4 * m.mantissa * unit := by ring
      _ ≤ (m.interval.low + 2) * unit := Nat.mul_le_mul_right unit hwide
      _ = m.interval.low * unit + 2 * unit := by ring
  have hhigh : (4 * m.mantissa + 2) * unit = 4 * (m.mantissa * unit) + 2 * unit := by ring
  rw [hhigh] at h
  split at h
  · next heven =>
    rw [decide_eq_true_eq] at heven
    omega
  · omega

private theorem half_of_covers {num den k : Nat} (h : m.Covers num den) (hshift : m.shift = k + 1)
    (hless : num * unitsPerOne < Binary64.leadingBit * (den * 2 ^ m.shift)) :
    m.mantissa = Binary64.leadingBit ∧
      2 * (2 * Binary64.leadingBit * (den * 2 ^ k)) ≤ 2 * (num * unitsPerOne) + den * 2 ^ k := by
  have hleading : Binary64.leadingBit ≤ m.mantissa := by
    rcases m.leading with hzero | hleading
    · omega
    · exact hleading
  have hdouble : den * 2 ^ m.shift = 2 * (den * 2 ^ k) := by
    rw [hshift, pow_succ]
    ring
  have hlow : m.interval.low * (2 * (den * 2 ^ k)) ≤ 4 * (num * unitsPerOne) := by
    unfold Covers at h
    rw [hdouble] at h
    split at h
    · exact h.1
    · exact h.1.le
  rw [hdouble] at hless
  rw [low_eq, hshift] at hlow
  generalize den * 2 ^ k = unit at hlow hless ⊢
  generalize num * unitsPerOne = units at hlow hless ⊢
  have hmantissa : m.mantissa = Binary64.leadingBit := by
    by_contra hne
    rw [if_neg (fun hpower => hne hpower.1)] at hlow
    have hmul : (4 * Binary64.leadingBit + 2) * (2 * unit) ≤
        (4 * m.mantissa - 2) * (2 * unit) := Nat.mul_le_mul_right _ (by omega)
    unfold Binary64.leadingBit at *
    omega
  refine ⟨hmantissa, ?_⟩
  rw [if_pos ⟨hmantissa, Nat.succ_ne_zero k⟩, hmantissa] at hlow
  unfold Binary64.leadingBit at *
  omega

private theorem lt_of_covers {num den : Nat} (hden : 0 < den) (h : m.Covers num den) :
    num * unitsPerOne < 2 * Binary64.leadingBit * (den * 2 ^ m.shift) := by
  obtain ⟨-, hhigh, -⟩ := m.near_of_covers h
  have hunit : 0 < den * 2 ^ m.shift := Nat.mul_pos hden (Nat.two_pow_pos _)
  have hmantissa : m.mantissa + 1 ≤ 2 * Binary64.leadingBit := m.mantissa_lt
  calc num * unitsPerOne < (m.mantissa + 1) * (den * 2 ^ m.shift) := by
        rw [Nat.succ_mul]
        omega
    _ ≤ 2 * Binary64.leadingBit * (den * 2 ^ m.shift) := Nat.mul_le_mul_right _ hmantissa

private theorem log2_sub_of_covers {num den : Nat} (hden : 0 < den) (h : m.Covers num den)
    (hlow : m.shift = 0 ∨ Binary64.leadingBit * (den * 2 ^ m.shift) ≤ num * unitsPerOne) :
    (num * unitsPerOne / den).log2 - 52 = m.shift := by
  have hhigh := m.lt_of_covers hden h
  by_cases hge : Binary64.leadingBit * (den * 2 ^ m.shift) ≤ num * unitsPerOne
  · rw [log2_div_eq hden hge hhigh, Nat.add_sub_cancel_left]
  · -- Without a leading bit nothing is cut off.
    have hzero : m.shift = 0 := hlow.resolve_right hge
    rw [hzero] at hhigh ⊢
    have hlt : num * unitsPerOne / den < 2 ^ 53 := by
      rw [Nat.div_lt_iff_lt_mul hden]
      unfold Binary64.leadingBit at hhigh
      omega
    by_cases hnone : num * unitsPerOne / den = 0
    · rw [hnone]
      rfl
    · have hlog : (num * unitsPerOne / den).log2 < 53 := (Nat.log2_lt hnone).2 hlt
      omega

/-- A quotient in the interval of a magnitude is rounded to it. -/
theorem unboundedWord_eq {num den : Nat} (hden : 0 < den) (h : m.Covers num den) :
    unboundedWord num den = m.word := by
  unfold unboundedWord word
  simp only [Nat.pow_eq]
  by_cases hsmall : m.shift ≠ 0 ∧ num * unitsPerOne < Binary64.leadingBit * (den * 2 ^ m.shift)
  · -- The quotient lies below a power of two, on the grid of half the unit.
    obtain ⟨hshift, hless⟩ := hsmall
    obtain ⟨k, hk⟩ := Nat.exists_eq_add_one_of_ne_zero hshift
    obtain ⟨hpower, hhalf⟩ := m.half_of_covers h hk hless
    have hunit : 0 < den * 2 ^ k := Nat.mul_pos hden (Nat.two_pow_pos _)
    have hhigh : num * unitsPerOne < 2 * Binary64.leadingBit * (den * 2 ^ k) := by
      calc num * unitsPerOne < Binary64.leadingBit * (den * 2 ^ m.shift) := hless
        _ = 2 * Binary64.leadingBit * (den * 2 ^ k) := by
          rw [hk, pow_succ]
          ring
    have hlow : Binary64.leadingBit * (den * 2 ^ k) ≤ num * unitsPerOne := by
      unfold Binary64.leadingBit at *
      omega
    have hlog : (num * unitsPerOne / den).log2 = 52 + k := log2_div_eq hden hlow hhigh
    have hround : roundHalfEven (num * unitsPerOne) (den * 2 ^ k) = 2 * Binary64.leadingBit :=
      roundHalfEven_eq hunit hhalf (by omega) (Or.inl (by rfl))
    rw [hlog, Nat.add_sub_cancel_left, hround, hpower, hk]
    ring
  · obtain ⟨hlow, hhigh, htie⟩ := m.near_of_covers h
    have hunit : 0 < den * 2 ^ m.shift := Nat.mul_pos hden (Nat.two_pow_pos _)
    have hupper : m.shift = 0 ∨ Binary64.leadingBit * (den * 2 ^ m.shift) ≤ num * unitsPerOne := by
      simpa only [ne_eq, not_and_or, not_not, not_lt] using hsmall
    rw [m.log2_sub_of_covers hden h hupper, roundHalfEven_eq hunit hlow hhigh htie]

end Magnitude

end DiagramScope.Decimal
