import DiagramScope.Decimal.Reading
import DiagramScope.Decimal.Text
import DiagramScope.Proofs.Decimal.Shortest

/-!
Printed numbers read back. Main statement: the text of a finite magnitude is a decimal literal, and
reading its parts gives the double with this magnitude.
-/

set_option autoImplicit false
set_option relaxedAutoImplicit false

namespace DiagramScope.Decimal

section Nearest

variable (m : Magnitude)

private theorem Magnitude.low_pos (hpos : 0 < m.mantissa) : 2 ≤ m.interval.low := by
  rw [m.low_eq]
  split <;> omega

private theorem Magnitude.range_of_covers (hpos : 0 < m.mantissa) {num den : Nat}
    (h : m.Covers num den) :
    den ≤ 2 * (num * unitsPerOne) ∧ num * unitsPerOne ≤ 2 ^ 2098 * den := by
  have hlow := m.low_pos hpos
  have hmantissa := m.mantissa_lt
  obtain ⟨hl, hh⟩ : m.interval.low * (den * 2 ^ m.shift) ≤ 4 * (num * unitsPerOne) ∧
      4 * (num * unitsPerOne) ≤ m.interval.high * (den * 2 ^ m.shift) := by
    unfold Magnitude.Covers at h
    split at h
    · exact h
    · exact ⟨h.1.le, h.2.le⟩
  have hone : den ≤ den * 2 ^ m.shift := Nat.le_mul_of_pos_right den (Nat.two_pow_pos _)
  constructor
  · have hmul : 2 * (den * 2 ^ m.shift) ≤ m.interval.low * (den * 2 ^ m.shift) :=
      Nat.mul_le_mul_right _ hlow
    omega
  · have hhigh : m.interval.high ≤ 4 * 2 ^ 53 := by
      rw [m.high_eq]
      unfold Binary64.leadingBit at hmantissa
      omega
    have hbound := m.shift_le
    have hexponent : 2098 = 53 + 2045 := rfl
    rw [hexponent, pow_add]
    generalize 2045 = bound at hbound ⊢
    have hshift : 2 ^ m.shift ≤ 2 ^ bound := Nat.pow_le_pow_right (by decide) hbound
    have hmul : m.interval.high * (den * 2 ^ m.shift) ≤ 4 * 2 ^ 53 * (den * 2 ^ bound) :=
      Nat.mul_le_mul hhigh (Nat.mul_le_mul_left den hshift)
    have hassoc : 4 * 2 ^ 53 * (den * 2 ^ bound) = 4 * (2 ^ 53 * 2 ^ bound * den) := by ring
    omega

private theorem units_le : 2 * unitsPerOne ≤ 10 ^ 325 := by
  have hsmall : 2 ^ 43 ≤ 10 ^ 13 := by decide
  unfold unitsPerOne
  generalize hlimit : 1074 = limit
  change 2 * 2 ^ limit ≤ 10 ^ 325
  rw [← pow_succ', ← hlimit, show 1074 + 1 = 43 * 25 from rfl, show 325 = 13 * 25 from rfl, pow_mul,
    pow_mul]
  exact Nat.pow_le_pow_left hsmall 25

private theorem limit_le {places : Nat} {num : Nat}
    (h : num * unitsPerOne ≤ 2 ^ 2098 * 10 ^ places) : num ≤ 10 ^ (309 + places) := by
  have hsmall : 2 ^ 256 ≤ 116 * 10 ^ 75 := by decide
  have hfour : 116 ^ 4 ≤ 10 ^ 9 := by decide
  have hlimit : 2 ^ 1024 ≤ 10 ^ 309 := by
    rw [show 1024 = 256 * 4 from rfl, show 309 = 75 * 4 + 9 from rfl, pow_mul, pow_add, pow_mul]
    calc (2 ^ 256) ^ 4 ≤ (116 * 10 ^ 75) ^ 4 := Nat.pow_le_pow_left hsmall 4
      _ = (10 ^ 75) ^ 4 * 116 ^ 4 := by rw [mul_pow, Nat.mul_comm]
      _ ≤ (10 ^ 75) ^ 4 * 10 ^ 9 := Nat.mul_le_mul_left _ hfour
  have hunits : 2 ^ 2098 = 2 ^ 1024 * unitsPerOne := by
    unfold unitsPerOne
    rw [show 2098 = 1024 + 1074 from rfl]
    generalize 1074 = limit
    exact pow_add 2 1024 limit
  have hpos := unitsPerOne_pos
  rw [hunits] at h
  rw [pow_add]
  generalize 10 ^ places = power at h ⊢
  generalize 2 ^ 1024 = limit at h hlimit
  generalize 10 ^ 309 = bound at hlimit ⊢
  generalize unitsPerOne = units at h hpos
  refine Nat.le_of_mul_le_mul_right ?_ hpos
  calc num * units ≤ limit * units * power := h
    _ = limit * power * units := by ring
    _ ≤ bound * power * units := Nat.mul_le_mul_right _ (Nat.mul_le_mul_right _ hlimit)

/-- A decimal that rounds to a magnitude is read as the double with this magnitude. -/
theorem Magnitude.nearest_eq (hpos : 0 < m.mantissa) {digits places : Nat}
    (h : m.Covers digits (10 ^ places)) : nearest digits (0 - (places : Int)) = m.toFloat := by
  obtain ⟨hlow, hhigh⟩ := m.range_of_covers hpos h
  have hden : 0 < 10 ^ places := Nat.pow_pos (by decide)
  have hdigits : digits ≠ 0 := by
    rintro rfl
    omega
  have hsmall : places < 325 + digitCount digits := by
    have hlt := lt_pow_digitCount digits
    refine (Nat.pow_lt_pow_iff_right (a := 10) (by decide)).1 ?_
    rw [pow_add]
    calc 10 ^ places ≤ 2 * unitsPerOne * digits := by
          rw [Nat.mul_assoc, Nat.mul_comm unitsPerOne]
          exact hlow
      _ < 2 * unitsPerOne * 10 ^ digitCount digits :=
          Nat.mul_lt_mul_of_pos_left hlt (Nat.mul_pos (by decide) unitsPerOne_pos)
      _ ≤ 10 ^ 325 * 10 ^ digitCount digits := Nat.mul_le_mul_right _ units_le
  have hlarge : digitCount digits - 1 ≤ 309 + places := by
    refine (Nat.pow_le_pow_iff_right (a := 10) (by decide)).1 ?_
    exact (pow_digitCount_le (Nat.pos_of_ne_zero hdigits)).trans (limit_le hhigh)
  have hword : nearestTo digits (10 ^ places) = m.toFloat := by
    unfold nearestTo infinityWord
    rw [m.unboundedWord_eq hden h, Nat.min_eq_left m.word_lt.le]
    rfl
  change (if decide (digits = 0) || decide (0 - (places : Int) + (digitCount digits : Int) < -330)
    then _ else _) = _
  rw [if_neg (by simp only [Bool.or_eq_true, decide_eq_true_eq]; omega)]
  rw [if_neg (by change ¬ 310 < 0 - (places : Int) + (digitCount digits : Int); omega)]
  rw [← hword]
  cases places with
  | zero =>
    change nearestTo (digits * Nat.pow 10 0) 1 = _
    rw [show Nat.pow 10 0 = 1 from rfl, Nat.mul_one, pow_zero]
  | succ places =>
    have hexponent : 0 - ((places + 1 : Nat) : Int) = .negSucc places := by omega
    rw [hexponent]
    rfl

end Nearest

section Digits

def pointed (whole fraction : List Char) : List Char :=
  if fraction.isEmpty then whole else whole ++ '.' :: fraction

/-- The text of an unsigned number, as digits that are read as the double `x`. -/
structure Spelled (text : List Char) (x : Float) (whole fraction : List Char) : Prop where
  text_eq : text = pointed whole fraction
  whole_ne_nil : whole ≠ []
  isDigit_whole : ∀ c ∈ whole, c.isDigit = true
  isDigit_fraction : ∀ c ∈ fraction, c.isDigit = true
  read : ofParts whole fraction 0 = x

theorem Spelled.exists_cons {text whole fraction : List Char} {x : Float}
    (h : Spelled text x whole fraction) : ∃ c more, text = c :: more ∧ c.isDigit = true := by
  obtain ⟨c, digits, hwhole⟩ := List.exists_cons_of_ne_nil h.whole_ne_nil
  have hc : c.isDigit = true := h.isDigit_whole c (by rw [hwhole]; exact List.mem_cons_self)
  refine ⟨c, pointed digits fraction, ?_, hc⟩
  rw [h.text_eq, hwhole]
  unfold pointed
  split <;> rfl

private theorem natOfDigits_append (front back : List Char) :
    natOfDigits (front ++ back) = Nat.ofDigitChars 10 back (natOfDigits front) :=
  Nat.ofDigitChars_append 0

private theorem natOfDigits_natDigits (n : Nat) : natOfDigits (natDigits n) = n :=
  Nat.ofDigitChars_ten_toDigits

private theorem natDigits_ne_nil (n : Nat) : natDigits n ≠ [] := Nat.toDigits_ne_nil

private theorem isDigit_natDigits (n : Nat) : ∀ c ∈ natDigits n, c.isDigit = true :=
  fun _ hc => Nat.isDigit_of_mem_toDigits (by decide) (by decide) hc

private theorem isDigit_zeros (n : Nat) : ∀ c ∈ List.replicate n '0', c.isDigit = true := by
  intro c hc
  rw [List.eq_of_mem_replicate hc]
  rfl

private theorem pointed_of_ne_nil {whole fraction : List Char} (h : fraction ≠ []) :
    pointed whole fraction = whole ++ '.' :: fraction := by
  unfold pointed
  rw [List.isEmpty_eq_false_iff.2 h]
  rfl

/-- Whether a text has digits around a point that stand for `num / den`. -/
structure Positional (text whole fraction : List Char) (num den : Nat) : Prop where
  text_eq : text = pointed whole fraction
  whole_ne_nil : whole ≠ []
  isDigit_whole : ∀ c ∈ whole, c.isDigit = true
  isDigit_fraction : ∀ c ∈ fraction, c.isDigit = true
  num_eq : natOfDigits (whole ++ fraction) = num
  den_eq : 10 ^ fraction.length = den

private theorem positional_behind (digits zeros : Nat) :
    Positional (natDigits digits ++ List.replicate zeros '0')
      (natDigits digits ++ List.replicate zeros '0') [] (digits * 10 ^ zeros) 1 where
  text_eq := rfl
  whole_ne_nil h := natDigits_ne_nil digits (List.append_eq_nil_iff.1 h).1
  isDigit_whole c hc :=
    (List.mem_append.1 hc).elim (isDigit_natDigits digits c) (isDigit_zeros zeros c)
  isDigit_fraction := nofun
  num_eq := by
    rw [List.append_nil, natOfDigits_append, natOfDigits_natDigits, Nat.ofDigitChars_replicate_zero,
      Nat.mul_comm]
  den_eq := rfl

private theorem positional_between {digits places : Nat} (hplaces : 0 < places)
    (h : places < (natDigits digits).length) :
    Positional ((natDigits digits).take ((natDigits digits).length - places) ++
        '.' :: (natDigits digits).drop ((natDigits digits).length - places))
      ((natDigits digits).take ((natDigits digits).length - places))
      ((natDigits digits).drop ((natDigits digits).length - places)) digits (10 ^ places) where
  text_eq := by
    refine (pointed_of_ne_nil ?_).symm
    rw [ne_eq, List.drop_eq_nil_iff]
    omega
  whole_ne_nil := by
    rw [ne_eq, List.take_eq_nil_iff, or_iff_left (natDigits_ne_nil digits)]
    omega
  isDigit_whole c hc := isDigit_natDigits digits c (List.mem_of_mem_take hc)
  isDigit_fraction c hc := isDigit_natDigits digits c (List.mem_of_mem_drop hc)
  num_eq := by rw [List.take_append_drop, natOfDigits_natDigits]
  den_eq := by
    rw [List.length_drop]
    congr 1
    omega

private theorem positional_inFront {digits places : Nat} (h : (natDigits digits).length ≤ places) :
    Positional ('0' :: '.' :: List.replicate (places - (natDigits digits).length) '0' ++
        natDigits digits)
      ['0'] (List.replicate (places - (natDigits digits).length) '0' ++ natDigits digits) digits
      (10 ^ places) where
  text_eq := by
    have hfraction : List.replicate (places - (natDigits digits).length) '0' ++
        natDigits digits ≠ [] :=
      fun hnil => natDigits_ne_nil digits (List.append_eq_nil_iff.1 hnil).2
    rw [pointed_of_ne_nil hfraction]
    rfl
  whole_ne_nil := List.cons_ne_nil _ _
  isDigit_whole := isDigit_zeros 1
  isDigit_fraction c hc :=
    (List.mem_append.1 hc).elim (isDigit_zeros _ c) (isDigit_natDigits digits c)
  num_eq := by
    rw [← List.append_assoc, natOfDigits_append, natOfDigits_append,
      show natOfDigits ['0'] = 0 from rfl, Nat.ofDigitChars_replicate_zero, Nat.mul_zero]
    exact Nat.ofDigitChars_ten_toDigits
  den_eq := by rw [List.length_append, List.length_replicate, Nat.sub_add_cancel h]

private theorem Scientific.exists_positional (s : Scientific) :
    ∃ whole fraction, Positional s.positional whole fraction (s.digits * (tenPower s.exponent).1)
      (tenPower s.exponent).2 := by
  obtain ⟨digits, exponent⟩ := s
  cases exponent with
  | ofNat zeros => exact ⟨_, _, positional_behind digits zeros⟩
  | negSucc n =>
    have hone : digits * (tenPower (.negSucc n)).1 = digits := Nat.mul_one digits
    rw [hone]
    simp only [Scientific.positional]
    split
    · next hlt => exact ⟨_, _, positional_between (Nat.succ_pos n) hlt⟩
    · next hle => exact ⟨_, _, positional_inFront (Nat.le_of_not_lt hle)⟩

variable (m : Magnitude)

theorem Magnitude.toFloat_of_mantissa (h : m.mantissa = 0) : m.toFloat = Float.ofBits 0 := by
  have hshift : m.shift = 0 := by
    rcases m.leading with hshift | hleading
    · exact hshift
    · rw [h] at hleading
      cases hleading
  unfold Magnitude.toFloat Magnitude.word
  rw [h, hshift]
  rfl

/-- The text of a magnitude is read as the double with this magnitude. -/
theorem Magnitude.spelled : ∃ whole fraction,
    Spelled (magnitude m.mantissa m.exponent) m.toFloat whole fraction := by
  by_cases hzero : m.mantissa = 0
  · refine ⟨['0'], [], ?_, List.cons_ne_nil _ _, isDigit_zeros 1, nofun, ?_⟩
    · rw [hzero]
      rfl
    · rw [m.toFloat_of_mantissa hzero]
      rfl
  · have hpos := Nat.pos_of_ne_zero hzero
    obtain ⟨whole, fraction, htext, hne, hwhole, hfraction, hnum, hden⟩ :=
      (shortest m.mantissa m.exponent).exists_positional
    have hcovers := m.covers_of_roundsTo (m.roundsTo_shortest hpos)
    rw [← hnum, ← hden] at hcovers
    refine ⟨whole, fraction, ?_, hne, hwhole, hfraction, m.nearest_eq hpos hcovers⟩
    unfold magnitude
    rw [if_neg hzero, htext]

theorem Magnitude.spelled_natDigits {n : Nat}
    (h : n * (Binary64.quotient m.mantissa m.exponent).2 =
      (Binary64.quotient m.mantissa m.exponent).1) :
    Spelled (natDigits n) m.toFloat (natDigits n) [] := by
  refine ⟨rfl, natDigits_ne_nil n, isDigit_natDigits n, nofun, ?_⟩
  rw [quotient_eq] at h
  have hden : 0 < (Binary64.quotient 1 m.exponent).2 := Binary64.quotient_den_pos 1 m.exponent
  have hunit := m.unit_eq
  simp only at h
  unfold ofParts
  rw [List.append_nil, natOfDigits_natDigits, List.length_nil]
  by_cases hzero : m.mantissa = 0
  · rw [hzero, Nat.zero_mul] at h
    obtain rfl : n = 0 := (Nat.mul_eq_zero.1 h).resolve_right hden.ne'
    rw [m.toFloat_of_mantissa hzero]
    rfl
  · refine m.nearest_eq (Nat.pos_of_ne_zero hzero) ?_
    have hexact : n * unitsPerOne = m.mantissa * 2 ^ m.shift := by
      refine Nat.eq_of_mul_eq_mul_right hden ?_
      calc n * unitsPerOne * (Binary64.quotient 1 m.exponent).2
          = m.mantissa * (Binary64.quotient 1 m.exponent).1 * unitsPerOne := by
            rw [← h]
            ring
        _ = m.mantissa * 2 ^ m.shift * (Binary64.quotient 1 m.exponent).2 := by
            rw [Nat.mul_assoc, hunit]
            ring
    have hlow : m.interval.low < 4 * m.mantissa := by
      rw [m.low_eq]
      split <;> omega
    have hhigh : 4 * m.mantissa < m.interval.high := by
      rw [m.high_eq]
      omega
    have hpower : 0 < 2 ^ m.shift := Nat.two_pow_pos m.shift
    unfold Magnitude.Covers
    rw [pow_zero, Nat.one_mul, hexact, ← Nat.mul_assoc]
    have hstrictLow := Nat.mul_lt_mul_of_pos_right hlow hpower
    have hstrictHigh := Nat.mul_lt_mul_of_pos_right hhigh hpower
    split
    · exact ⟨hstrictLow.le, hstrictHigh.le⟩
    · exact ⟨hstrictLow, hstrictHigh⟩

end Digits

end DiagramScope.Decimal
