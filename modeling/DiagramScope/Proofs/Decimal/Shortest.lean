import DiagramScope.Decimal.Shortest
import DiagramScope.Proofs.Decimal.Rounding
import Mathlib.Algebra.Order.Ring.Rat
import Mathlib.Tactic.GCongr
import Mathlib.Tactic.Linarith
import Mathlib.Tactic.Positivity

/-!
The search for the shortest decimal. Main statement: it ends with a decimal in the rounding
interval, since the grid of seventeen digits always has a point there.
-/

set_option autoImplicit false
set_option relaxedAutoImplicit false

namespace DiagramScope.Decimal

section TenPower

private theorem tenPower_den_pos (e : Int) : 0 < (tenPower e).2 := by
  cases e with
  | ofNat e => exact Nat.one_pos
  | negSucc e => exact Nat.pow_pos (by decide)

private theorem tenPower_num_pos (e : Int) : 0 < (tenPower e).1 := by
  cases e with
  | ofNat e => exact Nat.pow_pos (by decide)
  | negSucc e => exact Nat.one_pos

private theorem tenPower_neg (k : Nat) : tenPower (-(k : Int)) = (1, 10 ^ k) := by
  cases k with
  | zero => rfl
  | succ k => rfl

private theorem tenPower_eq (e : Int) : ((tenPower e).1 : ℚ) = 10 ^ e * (tenPower e).2 := by
  cases e with
  | ofNat e =>
    change ((10 ^ e : Nat) : ℚ) = 10 ^ (e : Int) * ((1 : Nat) : ℚ)
    rw [zpow_natCast]
    push_cast
    ring
  | negSucc e =>
    change ((1 : Nat) : ℚ) = 10 ^ (Int.negSucc e) * ((10 ^ (e + 1) : Nat) : ℚ)
    rw [zpow_negSucc]
    push_cast
    rw [inv_mul_cancel₀ (by positivity)]

end TenPower

section Leading

theorem pow_digitCount_le {n : Nat} (h : 0 < n) : 10 ^ (digitCount n - 1) ≤ n := by
  by_contra hlt
  have hlen : 0 < (Nat.toDigits 10 n).length := Nat.length_toDigits_pos
  unfold digitCount at hlt
  by_cases hone : (Nat.toDigits 10 n).length = 1
  · rw [hone] at hlt
    omega
  · have := (Nat.length_toDigits_le_iff (n := n) (by decide : 1 < 10)
      (by omega : 0 < (Nat.toDigits 10 n).length - 1)).2 (by omega)
    omega

theorem lt_pow_digitCount (n : Nat) : n < 10 ^ digitCount n :=
  (Nat.length_toDigits_le_iff (by decide) Nat.length_toDigits_pos).1 (Nat.le_refl _)

private theorem tenPower_leadingExponent_le {num den : Nat} (hnum : 0 < num) (hden : 0 < den) :
    (tenPower (leadingExponent num den)).1 * den ≤
      num * (tenPower (leadingExponent num den)).2 := by
  unfold leadingExponent
  split
  · next hle =>
    have hone : 0 < num / den := Nat.div_pos hle hden
    have hlen : 0 < digitCount (num / den) := Nat.length_toDigits_pos
    have hexponent : ((digitCount (num / den) : Nat) : Int) - 1 =
        ((digitCount (num / den) - 1 : Nat) : Int) := by omega
    rw [hexponent]
    change 10 ^ (digitCount (num / den) - 1) * den ≤ num * 1
    calc 10 ^ (digitCount (num / den) - 1) * den ≤ num / den * den :=
          Nat.mul_le_mul_right den (pow_digitCount_le hone)
      _ ≤ num * 1 := by
          rw [Nat.mul_one]
          exact Nat.div_mul_le_self num den
  · next hlt =>
    have hlen : 0 < digitCount (den / num) := Nat.length_toDigits_pos
    simp only
    split
    · next hle =>
      have hexponent : 1 - ((digitCount (den / num) : Nat) : Int) =
          -((digitCount (den / num) - 1 : Nat) : Int) := by omega
      rw [hexponent, tenPower_neg, Nat.one_mul]
      exact hle
    · rw [tenPower_neg, Nat.one_mul]
      have hless := lt_pow_digitCount (den / num)
      rw [Nat.div_lt_iff_lt_mul hnum] at hless
      rw [Nat.mul_comm]
      exact hless.le

private theorem pow_mul_le_scaled {num den : Nat} (hnum : 0 < num) (hden : 0 < den) (k : Nat) :
    10 ^ k * (den * (tenPower (leadingExponent num den - k)).1) ≤
      num * (tenPower (leadingExponent num den - k)).2 := by
  have hleading := tenPower_leadingExponent_le hnum hden
  generalize leadingExponent num den = e at hleading ⊢
  have hpos : (0 : ℚ) < (tenPower e).2 := by exact_mod_cast tenPower_den_pos e
  have hbelow : (10 : ℚ) ^ e * den ≤ num := by
    have hcast : ((tenPower e).1 : ℚ) * den ≤ num * (tenPower e).2 := by exact_mod_cast hleading
    rw [tenPower_eq e] at hcast
    nlinarith
  have hsplit : (10 : ℚ) ^ k * 10 ^ (e - k) = 10 ^ e := by
    rw [← zpow_natCast, ← zpow_add₀ (by norm_num)]
    congr 1
    omega
  have hgoal : (10 : ℚ) ^ k * (den * (tenPower (e - k)).1) ≤ num * (tenPower (e - k)).2 := by
    rw [tenPower_eq (e - k)]
    calc (10 : ℚ) ^ k * (den * (10 ^ (e - k) * (tenPower (e - k)).2)) =
          (10 ^ k * 10 ^ (e - k)) * den * (tenPower (e - k)).2 := by ring
      _ = 10 ^ e * den * (tenPower (e - k)).2 := by rw [hsplit]
      _ ≤ num * (tenPower (e - k)).2 := by gcongr
  exact_mod_cast hgoal

end Leading

section Grid

theorem quotient_eq (mantissa : Nat) (exponent : Int) :
    Binary64.quotient mantissa exponent =
      (mantissa * (Binary64.quotient 1 exponent).1, (Binary64.quotient 1 exponent).2) := by
  cases exponent with
  | ofNat e => exact Prod.ext (congrArg (mantissa * ·) (Nat.one_mul _).symm) rfl
  | negSucc e => exact Prod.ext (Nat.mul_one _).symm rfl

theorem quotient_one_pos (exponent : Int) : 0 < (Binary64.quotient 1 exponent).1 := by
  cases exponent with
  | ofNat e => exact Nat.mul_pos Nat.one_pos (Nat.two_pow_pos e)
  | negSucc e => exact Nat.one_pos

variable (m : Magnitude)

theorem Magnitude.unit_eq :
    (Binary64.quotient 1 m.exponent).1 * unitsPerOne =
      2 ^ m.shift * (Binary64.quotient 1 m.exponent).2 := by
  unfold unitsPerOne
  generalize hlimit : 1074 = limit
  change (Binary64.quotient 1 m.exponent).1 * 2 ^ limit = _
  have hexponent : m.exponent = (m.shift : Int) - (limit : Nat) := by
    rw [← hlimit]
    rfl
  rcases Nat.le_total limit m.shift with hle | hle
  · obtain ⟨k, hk⟩ := Nat.exists_eq_add_of_le hle
    have hk' : m.exponent = Int.ofNat k := by
      rw [hexponent, hk]
      simp
    rw [hk', hk, pow_add]
    change 1 * 2 ^ k * 2 ^ limit = 2 ^ limit * 2 ^ k * 1
    ring
  · obtain ⟨k, hk⟩ := Nat.exists_eq_add_of_le hle
    cases k with
    | zero =>
      have hk' : m.exponent = Int.ofNat 0 := by
        rw [hexponent, hk]
        simp
      rw [hk', hk]
      change 1 * 2 ^ 0 * 2 ^ (m.shift + 0) = 2 ^ m.shift * 1
      simp
    | succ k =>
      have hk' : m.exponent = Int.negSucc k := by
        rw [hexponent, hk]
        omega
      rw [hk', hk, pow_add]
      change 1 * (2 ^ m.shift * 2 ^ (k + 1)) = 2 ^ m.shift * 2 ^ (k + 1)
      ring

private theorem side_eq {un ud power td upo : Nat} (hunit : un * upo = power * ud) (side : Nat) :
    side * (td * power) * ud = side * un * td * upo :=
  calc side * (td * power) * ud = side * td * (power * ud) := by ring
    _ = side * td * (un * upo) := by rw [hunit]
    _ = side * un * td * upo := by ring

theorem Magnitude.covers_of_roundsTo {candidate : Nat} {place : Int}
    (h : roundsTo m.mantissa m.exponent candidate place = true) :
    m.Covers (candidate * (tenPower place).1) (tenPower place).2 := by
  have hunit := m.unit_eq
  have hden : 0 < (Binary64.quotient 1 m.exponent).2 := Binary64.quotient_den_pos 1 m.exponent
  unfold roundsTo at h
  simp only at h
  change (if m.interval.closed then
    decide (m.interval.low * _ * _ ≤ 4 * candidate * _ * _) &&
      decide (4 * candidate * _ * _ ≤ m.interval.high * _ * _)
    else decide (m.interval.low * _ * _ < 4 * candidate * _ * _) &&
      decide (4 * candidate * _ * _ < m.interval.high * _ * _)) = true at h
  unfold Magnitude.Covers
  generalize (Binary64.quotient 1 m.exponent).1 = un at hunit h
  generalize (Binary64.quotient 1 m.exponent).2 = ud at hunit h hden
  generalize (tenPower place).1 = tn at h ⊢
  generalize (tenPower place).2 = td at h ⊢
  have hside (side : Nat) : side * (td * _) * ud = _ := side_eq hunit side
  have hpoint : 4 * candidate * tn * ud * unitsPerOne =
      4 * (candidate * tn * unitsPerOne) * ud := by
    ring
  split at h
  · next hclosed =>
    rw [Bool.and_eq_true, decide_eq_true_eq, decide_eq_true_eq] at h
    rw [if_pos hclosed]
    constructor
    · refine Nat.le_of_mul_le_mul_right ?_ hden
      rw [hside, ← hpoint]
      exact Nat.mul_le_mul_right _ h.1
    · refine Nat.le_of_mul_le_mul_right ?_ hden
      rw [hside, ← hpoint]
      exact Nat.mul_le_mul_right _ h.2
  · next hopen =>
    rw [Bool.and_eq_true, decide_eq_true_eq, decide_eq_true_eq] at h
    rw [if_neg hopen]
    constructor
    · refine Nat.lt_of_mul_lt_mul_right (a := ud) ?_
      rw [hside, ← hpoint]
      exact Nat.mul_lt_mul_of_pos_right h.1 unitsPerOne_pos
    · refine Nat.lt_of_mul_lt_mul_right (a := ud) ?_
      rw [hside, ← hpoint]
      exact Nat.mul_lt_mul_of_pos_right h.2 unitsPerOne_pos

private theorem Magnitude.roundsTo_of_lt {candidate : Nat} {place : Int}
    (hlow : m.interval.low * (Binary64.quotient 1 m.exponent).1 * (tenPower place).2 <
      4 * candidate * (tenPower place).1 * (Binary64.quotient 1 m.exponent).2)
    (hhigh : 4 * candidate * (tenPower place).1 * (Binary64.quotient 1 m.exponent).2 <
      m.interval.high * (Binary64.quotient 1 m.exponent).1 * (tenPower place).2) :
    roundsTo m.mantissa m.exponent candidate place = true := by
  unfold roundsTo
  change (if m.interval.closed then decide (_ ≤ _) && decide (_ ≤ _)
    else decide (_ < _) && decide (_ < _)) = true
  split
  · rw [Bool.and_eq_true, decide_eq_true_eq, decide_eq_true_eq]
    exact ⟨hlow.le, hhigh.le⟩
  · rw [Bool.and_eq_true, decide_eq_true_eq, decide_eq_true_eq]
    exact ⟨hlow, hhigh⟩

/-- How far the interval reaches below the magnitude, in quarters of a unit. -/
def Magnitude.below : Nat :=
  if m.mantissa = Binary64.leadingBit ∧ m.shift ≠ 0 then 1 else 2

private theorem Magnitude.low_add_below (hpos : 0 < m.mantissa) :
    m.interval.low + m.below = 4 * m.mantissa := by
  rw [m.low_eq]
  unfold Magnitude.below
  split <;> omega

private theorem step_lt_unit {step unit : Nat} (hstep : 0 < step)
    (hfine : 10 ^ 16 * step ≤ m.mantissa * unit) : 2 * step < m.below * unit := by
  have hlt := m.mantissa_lt
  unfold Magnitude.below
  split
  · next hpower =>
    rw [hpower.1] at hfine
    unfold Binary64.leadingBit at hfine
    omega
  · have hmul : m.mantissa * unit ≤ 2 * Binary64.leadingBit * unit :=
      Nat.mul_le_mul_right unit hlt.le
    unfold Binary64.leadingBit at hmul
    omega

/-- One of the two neighbours of the value is near enough on a grid of seventeen digits: if the
lower one is at most half a step away, it is that one, else the upper one. -/
theorem Magnitude.neighbour_roundsTo (hpos : 0 < m.mantissa) {place : Int} {down remainder : Nat}
    (hfine : 10 ^ 16 * ((Binary64.quotient 1 m.exponent).2 * (tenPower place).1) ≤
      m.mantissa * (Binary64.quotient 1 m.exponent).1 * (tenPower place).2)
    (hsplit : (Binary64.quotient 1 m.exponent).2 * (tenPower place).1 * down + remainder =
      m.mantissa * (Binary64.quotient 1 m.exponent).1 * (tenPower place).2)
    (hless : remainder < (Binary64.quotient 1 m.exponent).2 * (tenPower place).1) :
    roundsTo m.mantissa m.exponent down place = true ∨
      roundsTo m.mantissa m.exponent (down + 1) place = true := by
  have hstep := step_lt_unit m (Nat.zero_lt_of_lt hless) (by rwa [Nat.mul_assoc] at hfine)
  have hbelow : m.below ≤ 2 := by
    unfold Magnitude.below
    split <;> omega
  have hends : m.interval.low * ((Binary64.quotient 1 m.exponent).1 * (tenPower place).2) +
      m.below * ((Binary64.quotient 1 m.exponent).1 * (tenPower place).2) =
        4 * (m.mantissa * (Binary64.quotient 1 m.exponent).1 * (tenPower place).2) := by
    rw [← Nat.add_mul, m.low_add_below hpos]
    ring
  have hdown : _ → _ → roundsTo m.mantissa m.exponent down place = true := m.roundsTo_of_lt
  have hup : _ → _ → roundsTo m.mantissa m.exponent (down + 1) place = true := m.roundsTo_of_lt
  rw [high_eq] at hdown hup
  generalize (Binary64.quotient 1 m.exponent).1 = un at *
  generalize (Binary64.quotient 1 m.exponent).2 = ud at *
  generalize (tenPower place).1 = tn at *
  generalize (tenPower place).2 = td at *
  have hwide : m.below * (un * td) ≤ 2 * (un * td) := Nat.mul_le_mul_right _ hbelow
  have hlow : m.interval.low * un * td = m.interval.low * (un * td) := by ring
  have hhigh : (4 * m.mantissa + 2) * un * td = 4 * (m.mantissa * un * td) + 2 * (un * td) := by
    ring
  have hpoint : 4 * down * tn * ud = 4 * (ud * tn * down) := by ring
  have hnext : 4 * (down + 1) * tn * ud = 4 * (ud * tn * down) + 4 * (ud * tn) := by ring
  rw [hlow, hhigh, hpoint] at hdown
  rw [hlow, hhigh, hnext] at hup
  by_cases hnear : 2 * remainder < ud * tn
  · exact Or.inl (hdown (by omega) (by omega))
  · exact Or.inr (hup (by omega) (by omega))

private theorem Magnitude.roundsTo_of_onGrid? {place : Int} {s : Scientific}
    (h : onGrid? m.mantissa m.exponent place = some s) :
    roundsTo m.mantissa m.exponent s.digits s.exponent = true := by
  unfold onGrid? at h
  simp only at h
  split at h
  · next hdown =>
    obtain rfl := Option.some.inj h
    exact (Bool.and_eq_true_iff.1 hdown).1
  · split at h
    · next hup =>
      obtain rfl := Option.some.inj h
      exact hup
    · cases h

private theorem Magnitude.onGrid?_ne_none (hpos : 0 < m.mantissa) :
    onGrid? m.mantissa m.exponent
      (leadingExponent (Binary64.quotient m.mantissa m.exponent).1
        (Binary64.quotient m.mantissa m.exponent).2 - (16 : Nat)) ≠ none := by
  have hquotient := quotient_eq m.mantissa m.exponent
  have hnum : 0 < m.mantissa * (Binary64.quotient 1 m.exponent).1 :=
    Nat.mul_pos hpos (quotient_one_pos m.exponent)
  have hden : 0 < (Binary64.quotient 1 m.exponent).2 := Binary64.quotient_den_pos 1 m.exponent
  have hfine := pow_mul_le_scaled hnum hden 16
  rw [hquotient]
  simp only at hfine ⊢
  generalize leadingExponent _ _ - ((16 : Nat) : Int) = place at hfine ⊢
  have hstep : 0 < (Binary64.quotient 1 m.exponent).2 * (tenPower place).1 :=
    Nat.mul_pos hden (tenPower_num_pos place)
  have hnear := m.neighbour_roundsTo hpos hfine (Nat.div_add_mod _ _) (Nat.mod_lt _ hstep)
  intro hnone
  unfold onGrid? at hnone
  rw [hquotient] at hnone
  simp only at hnone
  rcases hnear with hdown | hup
  · rw [hdown] at hnone
    split at hnone
    · cases hnone
    · split at hnone
      · cases hnone
      · next hfirst hup =>
        rw [Bool.not_eq_true] at hup
        simp [hup] at hfirst
  · rw [hup] at hnone
    split at hnone
    · cases hnone
    · rw [if_pos rfl] at hnone
      cases hnone

/-- The shortest decimal rounds to the magnitude. -/
theorem Magnitude.roundsTo_shortest (hpos : 0 < m.mantissa) :
    roundsTo m.mantissa m.exponent (shortest m.mantissa m.exponent).digits
      (shortest m.mantissa m.exponent).exponent = true := by
  have hlast := m.onGrid?_ne_none hpos
  unfold shortest
  simp only
  generalize leadingExponent _ _ = leading at hlast ⊢
  cases hfound : ((List.range 18).map fun (n : Nat) => leading + 1 - (n : Int)).findSome?
      (onGrid? m.mantissa m.exponent) with
  | none =>
    rw [List.findSome?_eq_none_iff] at hfound
    refine absurd (hfound _ ?_) hlast
    rw [List.mem_map]
    exact ⟨17, by decide, by omega⟩
  | some s =>
    obtain ⟨place, _, hs⟩ := List.exists_of_findSome?_eq_some hfound
    exact m.roundsTo_of_onGrid? hs

end Grid

end DiagramScope.Decimal
