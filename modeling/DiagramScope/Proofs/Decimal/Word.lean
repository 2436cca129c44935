import DiagramScope.Decimal.Binary64
import Mathlib.Algebra.Order.Ring.Nat

/-!
The words of doubles. Main statements: a finite double is the one whose word is made of its sign,
shift and mantissa, and changing its sign changes the highest bit.
-/

set_option autoImplicit false
set_option relaxedAutoImplicit false

namespace DiagramScope.Decimal

open Float.Model (Format UnpackedFloat)
open Float.Model.UnpackedFloat

section Packing

/-- What the fields of a word stand for: its sign, its exponent and its mantissa. -/
inductive Unpacks (s : Sign) (e : BitVec 11) (m : BitVec 52) : UnpackedFloat → Prop
  | infinity (he : e = -1#11) (hm : m = 0#52) : Unpacks s e m (.infinity s)
  | notANumber (he : e = -1#11) (hm : m ≠ 0#52) : Unpacks s e m .notANumber
  | zero (he : e = 0#11) (hm : m = 0#52) : Unpacks s e m (.zero s)
  | small (he : e = 0#11) (hm : m ≠ 0#52) (hpos : 0 < m.toNat) :
      Unpacks s e m (.finite s m.toNat (-1074) hpos)
  | leading (hlast : e ≠ -1#11) (he : e ≠ 0#11) (hpos : 0 < (1#1 ++ m).toNat) :
      Unpacks s e m (.finite s (1#1 ++ m).toNat (e.toNat - 1075) hpos)

variable (b : BitVec Format.binary64.numBits)

private theorem unpacks_unpack :
    Unpacks (Sign.ofBitVec (unpackSign b)) (unpackExponent b) (unpackMantissa b)
      (unpack Format.binary64 b) := by
  unfold unpack
  dsimp only
  by_cases hlast : unpackExponent b = -1#11
  · rw [if_pos hlast]
    by_cases hm : unpackMantissa b = 0#52
    · rw [if_pos hm]
      exact .infinity hlast hm
    · rw [if_neg hm]
      exact .notANumber hlast hm
  · rw [if_neg hlast]
    by_cases he : unpackExponent b = 0#11
    · rw [if_pos he]
      by_cases hm : unpackMantissa b = 0#52
      · rw [dif_pos hm]
        exact .zero he hm
      · have hexponent : ((unpackExponent b).toNat : Int) - (1023 + 52) + 1 = -1074 := by
          rw [he]
          rfl
        rw [dif_neg hm]
        exact hexponent ▸ .small he hm _
    · rw [if_neg he]
      exact .leading hlast he _

private theorem unpackSign_eq :
    unpackSign b = BitVec.cast (Nat.add_sub_cancel_left 63 1) (BitVec.extractLsb 63 63 b) := rfl

private theorem packComponents_unpack :
    packComponents Format.binary64 (Sign.ofBitVec (unpackSign b)) (unpackExponent b)
      (unpackMantissa b) = b := by
  have hsign : ∀ v : BitVec 1, (Sign.ofBitVec v).toBitVec = v := by decide
  simp only [packComponents, hsign]
  apply BitVec.eq_of_getLsbD_eq
  intro i hi
  simp only [unpackSign_eq, unpackExponent, unpackMantissa, BitVec.getLsbD_append,
    BitVec.getLsbD_cast, BitVec.getLsbD_extractLsb]
  split
  · have hbound : i < 52 - 1 - 0 + 1 := by omega
    simp [hbound]
  · split
    · have hindex : 52 + (i - 52) = i := by omega
      have hbound : i - 52 < 52 + 11 - 1 - 52 + 1 := by omega
      simp [hindex, hbound]
    · have hindex : 52 + 11 + (i - 52 - 11) = i := by omega
      have hbound : i - 52 - 11 < 52 + 11 - (52 + 11) + 1 := by omega
      simp [hindex, hbound]

private theorem toNat_leadingBit_append (m : BitVec 52) :
    (1#1 ++ m).toNat = 2 ^ 52 + m.toNat := by
  rw [BitVec.toNat_append, ← Nat.shiftLeft_add_eq_or_of_lt m.isLt]
  simp [Nat.shiftLeft_eq]

private theorem pack_finite (s : Sign) (m : Nat) (e : Int) (h : 0 < m) :
    pack Format.binary64 (.finite s m e h) =
      if 2 ^ 11 ≤ (e + 1023 + 52).toNat + 1 then packedInfinity Format.binary64 s
      else if m.log2 + 1 = 53 then
        packComponents Format.binary64 s (BitVec.ofNat 11 (e + 1023 + 52).toNat) (BitVec.ofNat 52 m)
      else packComponents Format.binary64 s 0#11 (BitVec.ofNat 52 m) := rfl

/-- Packing an unpacked word gives it back, unless it is one of the unused words that are not
numbers. -/
theorem pack_unpack (h : Format.binary64.Valid b) :
    pack Format.binary64 (unpack Format.binary64 b) = b := by
  have hb := packComponents_unpack b
  have hmant : (unpackMantissa b).toNat < 2 ^ 52 := (unpackMantissa b).isLt
  have hexp : (unpackExponent b).toNat < 2 ^ 11 := (unpackExponent b).isLt
  have hunpacks := unpacks_unpack b
  generalize unpack Format.binary64 b = u at hunpacks
  cases hunpacks with
  | infinity he hm =>
    rw [he, hm] at hb
    exact hb
  | notANumber he hm => exact (h.eq_packedNaN he hm).symm
  | zero he hm =>
    rw [he, hm] at hb
    exact hb
  | small he _ hpos =>
    have hlog : (unpackMantissa b).toNat.log2 < 52 := (Nat.log2_lt (by omega)).2 hmant
    rw [pack_finite, if_neg (by decide), if_neg (by omega), BitVec.ofNat_toNat, BitVec.setWidth_eq]
    rw [he] at hb
    exact hb
  | leading hlast he hpos =>
    have hlast' : (unpackExponent b).toNat ≠ 2047 := fun h => hlast (BitVec.eq_of_toNat_eq h)
    have happend := toNat_leadingBit_append (unpackMantissa b)
    have hlog : (2 ^ 52 + (unpackMantissa b).toNat).log2 = 52 := by
      rw [Nat.log2_eq_iff (by omega)]
      omega
    have hbiased : (((unpackExponent b).toNat : Int) - 1075 + 1023 + 52).toNat =
        (unpackExponent b).toNat := by
      omega
    have hmantissa : BitVec.ofNat 52 (2 ^ 52 + (unpackMantissa b).toNat) = unpackMantissa b := by
      apply BitVec.eq_of_toNat_eq
      rw [BitVec.toNat_ofNat]
      omega
    rw [pack_finite, happend, hlog, hbiased, hmantissa, if_neg (by omega), if_pos rfl,
      BitVec.ofNat_toNat, BitVec.setWidth_eq]
    exact hb

end Packing

section Fields

variable (b : BitVec Format.binary64.numBits)

private theorem toNat_unpackMantissa : (unpackMantissa b).toNat = b.toNat % 2 ^ 52 := by
  simp only [unpackMantissa, BitVec.toNat_cast, BitVec.extractLsb_toNat, Nat.shiftRight_zero]

private theorem toNat_unpackExponent : (unpackExponent b).toNat = b.toNat / 2 ^ 52 % 2 ^ 11 := by
  simp only [unpackExponent, BitVec.toNat_cast, BitVec.extractLsb_toNat, Nat.shiftRight_eq_div_pow]

private theorem toNat_unpackSign : (unpackSign b).toNat = b.toNat / 2 ^ 63 % 2 := by
  simp only [unpackSign_eq, BitVec.toNat_cast, BitVec.extractLsb_toNat, Nat.shiftRight_eq_div_pow]

private theorem valid_of_field (h : b.toNat / 2 ^ 52 % 2 ^ 11 ≠ 2047) :
    Format.binary64.Valid b := by
  refine ⟨fun he => absurd ?_ h⟩
  rw [← toNat_unpackExponent, he]
  rfl

end Fields

private theorem Unpacks.neg_eq {s s' : Sign} {e : BitVec 11} {m : BitVec 52} {u v : UnpackedFloat}
    (hu : Unpacks s e m u) (hv : Unpacks s' e m v) (hs : -s = s') : u.neg = v := by
  subst hs
  -- Where the fields fit two cases, the cases are the same.
  cases hu <;> cases hv <;> first | rfl | (exfalso; simp_all)

private theorem neg_unpack {b c : BitVec Format.binary64.numBits} (hb : b.toNat < 2 ^ 63)
    (hc : c.toNat = 2 ^ 63 + b.toNat) :
    (unpack Format.binary64 b).neg = unpack Format.binary64 c := by
  have hmant : unpackMantissa c = unpackMantissa b := by
    apply BitVec.eq_of_toNat_eq
    rw [toNat_unpackMantissa, toNat_unpackMantissa, hc]
    omega
  have hexp : unpackExponent c = unpackExponent b := by
    apply BitVec.eq_of_toNat_eq
    rw [toNat_unpackExponent, toNat_unpackExponent, hc]
    omega
  have hpositive : unpackSign b = 0#1 := by
    apply BitVec.eq_of_toNat_eq
    rw [toNat_unpackSign]
    exact Nat.mod_eq_of_lt (by omega) |>.trans (by simp; omega)
  have hnegative : unpackSign c = 1#1 := by
    apply BitVec.eq_of_toNat_eq
    rw [toNat_unpackSign, hc]
    simp
    omega
  have hunpacks := unpacks_unpack c
  rw [hmant, hexp, hnegative] at hunpacks
  refine (unpacks_unpack b).neg_eq hunpacks ?_
  rw [hpositive]
  rfl

private theorem ofBits_toBits (x : Float) : Float.ofBits x.toBits = x := by
  obtain ⟨⟨bits, valid⟩⟩ := x
  have h := pack_unpack bits.toBitVec valid
  change Float.ofModel (.ofBits bits) = _
  congr 1
  change Float.Model.mk (UInt64.ofBitVec _) _ = _
  congr 1
  rw [h]

private theorem toBits_ofBits {bits : UInt64} (h : Format.binary64.Valid bits.toBitVec) :
    (Float.ofBits bits).toBits = bits := by
  change UInt64.ofBitVec (pack Format.binary64 (unpack Format.binary64 bits.toBitVec)) = bits
  rw [pack_unpack bits.toBitVec h]

private theorem neg_ofBits {bits negated : UInt64} (h : Format.binary64.Valid bits.toBitVec)
    (hbits : bits.toNat < 2 ^ 63) (hnegated : negated.toNat = 2 ^ 63 + bits.toNat) :
    -Float.ofBits bits = Float.ofBits negated := by
  have hsame : (Float.ofBits bits).toBits = bits := toBits_ofBits h
  change Float.ofModel (.pack (unpack Format.binary64 (Float.ofBits bits).toBits.toBitVec).neg) =
    Float.ofModel (.pack (unpack Format.binary64 negated.toBitVec))
  rw [hsame, neg_unpack hbits hnegated]

/-- The mantissa and the shift of a finite magnitude, which is `mantissa * 2 ^ shift` units. -/
structure Magnitude where
  mantissa : Nat
  shift : Nat
  mantissa_lt : mantissa < 2 * Binary64.leadingBit
  shift_le : shift ≤ 2045
  /-- Only the magnitudes without a shift may lack the leading bit. -/
  leading : shift = 0 ∨ Binary64.leadingBit ≤ mantissa

namespace Magnitude

variable (m : Magnitude)

def word : Nat := m.shift * Binary64.leadingBit + m.mantissa

def exponent : Int := (m.shift : Int) - 1074

theorem word_lt : m.word < 2047 * Binary64.leadingBit := by
  have hmantissa := m.mantissa_lt
  have hshift := m.shift_le
  unfold word Binary64.leadingBit at *
  omega

def toFloat : Float := Float.ofBits (UInt64.ofNat m.word)

private theorem toNat_word : (UInt64.ofNat m.word).toNat = m.word := by
  have hword := m.word_lt
  rw [UInt64.toNat_ofNat']
  unfold Binary64.leadingBit at hword
  omega

private theorem valid_word : Format.binary64.Valid (UInt64.ofNat m.word).toBitVec := by
  have hword := m.word_lt
  refine valid_of_field _ ?_
  rw [UInt64.toNat_toBitVec, m.toNat_word]
  unfold Binary64.leadingBit at hword
  omega

end Magnitude

private theorem word_of_finite {bits : UInt64} {negative : Bool} {mantissa : Nat} {exponent : Int}
    (h : Binary64.ofBits bits = .finite negative mantissa exponent) :
    ∃ m : Magnitude, m.mantissa = mantissa ∧ m.exponent = exponent ∧
      bits.toNat = (if negative then 2 ^ 63 else 0) + m.word := by
  have hbits : bits.toNat < 2 ^ 64 := bits.toNat_lt
  have hsign : (if decide (Binary64.signBit ≤ bits.toNat) then 2 ^ 63 else 0) =
      bits.toNat / 2 ^ 63 * 2 ^ 63 := by
    unfold Binary64.signBit
    split <;> simp only [decide_eq_true_eq] at * <;> omega
  unfold Binary64.ofBits at h
  simp only at h
  split at h
  · split at h <;> cases h
  · next hnumber =>
    split at h
    · next hfield =>
      obtain ⟨rfl, rfl, rfl⟩ := Binary64.finite.inj h
      have hfraction : bits.toNat % Binary64.leadingBit < 2 * Binary64.leadingBit := by
        unfold Binary64.leadingBit
        omega
      refine ⟨⟨_, 0, hfraction, Nat.zero_le _, Or.inl rfl⟩, rfl, rfl, ?_⟩
      rw [hsign]
      unfold Magnitude.word
      unfold Binary64.leadingBit Binary64.fieldSize at *
      simp only
      omega
    · next hfield =>
      obtain ⟨rfl, rfl, rfl⟩ := Binary64.finite.inj h
      have hfraction : Binary64.leadingBit + bits.toNat % Binary64.leadingBit <
          2 * Binary64.leadingBit := by
        unfold Binary64.leadingBit
        omega
      have hshift : bits.toNat / Binary64.leadingBit % Binary64.fieldSize - 1 ≤ 2045 := by
        unfold Binary64.leadingBit Binary64.fieldSize at *
        omega
      refine ⟨⟨_, _, hfraction, hshift, Or.inr (Nat.le_add_right _ _)⟩, rfl, ?_, ?_⟩
      · unfold Magnitude.exponent
        simp only
        omega
      · rw [hsign]
        unfold Magnitude.word
        unfold Binary64.leadingBit Binary64.fieldSize at *
        simp only
        omega

/-- A finite double is its magnitude, negated if it is negative. -/
theorem eq_of_ofFloat {x : Float} {negative : Bool} {mantissa : Nat} {exponent : Int}
    (h : Binary64.ofFloat x = .finite negative mantissa exponent) :
    ∃ m : Magnitude, m.mantissa = mantissa ∧ m.exponent = exponent ∧
      x = if negative then -m.toFloat else m.toFloat := by
  obtain ⟨m, hmantissa, hexponent, hword⟩ := word_of_finite h
  refine ⟨m, hmantissa, hexponent, ?_⟩
  cases negative with
  | false =>
    have hsame : x.toBits = UInt64.ofNat m.word := by
      apply UInt64.toNat_inj.1
      rw [hword, m.toNat_word]
      exact Nat.zero_add _
    rw [← ofBits_toBits x, hsame]
    rfl
  | true =>
    have hlt : m.word < 2 ^ 63 := by
      have := m.word_lt
      unfold Binary64.leadingBit at this
      omega
    have hneg : -m.toFloat = Float.ofBits x.toBits :=
      neg_ofBits m.valid_word (by rw [m.toNat_word]; exact hlt) (by rw [hword, m.toNat_word]; rfl)
    rw [ofBits_toBits] at hneg
    exact hneg.symm

private theorem compare_self {u : UnpackedFloat} (h : u ≠ .notANumber) :
    u.compare u = some .eq := by
  cases u with
  | notANumber => exact absurd rfl h
  | infinity sign => cases sign <;> rfl
  | zero sign => cases sign <;> rfl
  | finite sign mantissa exponent hpos =>
    have hexponent : compare exponent exponent = .eq := Std.ReflCmp.compare_self
    have hmantissa : compare mantissa mantissa = .eq := Std.ReflCmp.compare_self
    cases sign with
    | negative =>
      change some ((compare exponent exponent).then (compare mantissa mantissa)).swap = _
      rw [hexponent, hmantissa]
      rfl
    | positive =>
      change some ((compare exponent exponent).then (compare mantissa mantissa)) = _
      rw [hexponent, hmantissa]
      rfl

theorem beq_self_of_ofFloat {x : Float} {negative : Bool} {mantissa : Nat} {exponent : Int}
    (h : Binary64.ofFloat x = .finite negative mantissa exponent) : (x == x) = true := by
  have hfield : x.toBits.toNat / 2 ^ 52 % 2 ^ 11 ≠ 2047 := by
    intro hfield
    unfold Binary64.ofFloat Binary64.ofBits at h
    simp only at h
    rw [if_pos (show x.toBits.toNat / Binary64.leadingBit % Binary64.fieldSize = 2047 from hfield)]
      at h
    split at h <;> cases h
  have hnumber : unpack Format.binary64 x.toBits.toBitVec ≠ .notANumber := by
    intro hnan
    have hunpacks := unpacks_unpack x.toBits.toBitVec
    rw [hnan] at hunpacks
    cases hunpacks with
    | notANumber he _ =>
      rw [← UInt64.toNat_toBitVec, ← toNat_unpackExponent, he] at hfield
      exact hfield rfl
  have hcompare := compare_self hnumber
  change (UnpackedFloat.compare _ _ == some .eq) = true
  change UnpackedFloat.compare (unpack Format.binary64 x.toBits.toBitVec) _ = _ at hcompare
  exact beq_iff_eq.2 hcompare

end DiagramScope.Decimal
