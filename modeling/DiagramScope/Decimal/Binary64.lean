/-!
The exact value of a double: not a number, an infinity, or a sign with a natural number times a
power of two. All decimal text of a number is computed from this form in exact arithmetic.
-/

set_option autoImplicit false
set_option relaxedAutoImplicit false

namespace DiagramScope.Decimal

/-- What the 64 bits of a double stand for. -/
inductive Binary64 where
  /-- Not a number. -/
  | nan
  | infinite (negative : Bool)
  /-- The number `mantissa * 2 ^ exponent`, negated if `negative` holds. -/
  | finite (negative : Bool) (mantissa : Nat) (exponent : Int)
  deriving DecidableEq, Repr

namespace Binary64

def signBit : Nat := 0x8000000000000000

/-- The bit in front of the 52 bits of a fraction. Normal mantissas have it, unwritten. -/
def leadingBit : Nat := 0x10000000000000

def fieldSize : Nat := 2048

/-- Sign, eleven bits of exponent and 52 bits of fraction, read from the top. -/
def ofBits (bits : UInt64) : Binary64 :=
  let word : Nat := bits.toNat
  let negative := decide (signBit ≤ word)
  let field : Nat := word / leadingBit % fieldSize
  let fraction : Nat := word % leadingBit
  if field = 2047 then
    if fraction = 0 then infinite negative else nan
  else if field = 0 then
    finite negative fraction (-1074)
  else
    finite negative (leadingBit + fraction) ((field : Int) - 1075)

def ofFloat (x : Float) : Binary64 := ofBits x.toBits

def quotient (mantissa : Nat) (exponent : Int) : Nat × Nat :=
  match exponent with
  | .ofNat e => (mantissa * Nat.pow 2 e, 1)
  | .negSucc e => (mantissa, Nat.pow 2 (e + 1))

theorem quotient_den_pos (mantissa : Nat) (exponent : Int) :
    0 < (quotient mantissa exponent).2 := by
  cases exponent with
  | ofNat e => exact Nat.one_pos
  | negSucc e => exact Nat.two_pow_pos (e + 1)

def toInt? : Binary64 → Option Int
  | finite negative mantissa exponent =>
    let (num, den) := quotient mantissa exponent
    if num % den = 0 then
      some (if negative then -((num / den : Nat) : Int) else ((num / den : Nat) : Int))
    else
      none
  | _ => none

end Binary64

end DiagramScope.Decimal
