import DiagramScope.Decimal.Binary64

/-!
Rounding a quotient of natural numbers to a double, to nearest with ties to even. The magnitudes of
doubles are the whole multiples of `2 ^ shift * 2 ^ (-1074)` with at most 53 bits, and their words
count them in order: the word of `mantissa * 2 ^ shift` units is `shift * 2 ^ 52 + mantissa`.
-/

set_option autoImplicit false
set_option relaxedAutoImplicit false

namespace DiagramScope.Decimal

/-- The natural number nearest to `num / den`. Of two equally near ones it is the even one. -/
def roundHalfEven (num den : Nat) : Nat :=
  let down := num / den
  let remainder := num % den
  if 2 * remainder < den then down
  else if den < 2 * remainder then down + 1
  else if down % 2 = 0 then down
  else down + 1

def infinityWord : Nat := 2047 * Binary64.leadingBit

def unitsPerOne : Nat := Nat.pow 2 1074

theorem unitsPerOne_pos : 0 < unitsPerOne := by
  unfold unitsPerOne
  generalize 1074 = k
  exact Nat.two_pow_pos k

/-- The word of the double nearest to `num / den`, if the exponent had no upper bound. -/
def unboundedWord (num den : Nat) : Nat :=
  let units := num * unitsPerOne
  let shift := (units / den).log2 - 52
  shift * Binary64.leadingBit + roundHalfEven units (den * Nat.pow 2 shift)

def nearestTo (num den : Nat) : Float :=
  Float.ofBits (UInt64.ofNat (min (unboundedWord num den) infinityWord))

end DiagramScope.Decimal
