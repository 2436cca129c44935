import DiagramScope.Decimal.Binary64

/-!
The shortest decimal that reads back to a given double. A decimal `digits * 10 ^ exponent` reads
back to a double if it lies in the interval of numbers that round to it. Grids of powers of ten are
tried from the coarsest that can hold one, and on each only the two neighbours of the value matter.
-/

set_option autoImplicit false
set_option relaxedAutoImplicit false

namespace DiagramScope.Decimal

/-- The number `digits * 10 ^ exponent`. -/
structure Scientific where
  digits : Nat
  exponent : Int
  deriving DecidableEq, Repr

def digitCount (n : Nat) : Nat := (Nat.toDigits 10 n).length

/-- The exponent `e` with `10 ^ e ≤ num / den < 10 ^ (e + 1)`, for positive `num` and `den`. -/
def leadingExponent (num den : Nat) : Int :=
  if den ≤ num then
    ((digitCount (num / den) : Nat) : Int) - 1
  else
    let places := digitCount (den / num)
    if den ≤ num * Nat.pow 10 (places - 1) then 1 - (places : Int) else -(places : Int)

/-- The numbers that round to a double, in quarters of the unit `2 ^ exponent`: the ends lie half
way to the neighbours, nearer below a power of two, and belong to it if the mantissa is even. -/
structure RoundingInterval where
  low : Nat
  high : Nat
  closed : Bool
  deriving DecidableEq, Repr

def roundingInterval (mantissa : Nat) (exponent : Int) : RoundingInterval :=
  let below := if mantissa = Binary64.leadingBit ∧ exponent ≠ -1074 then 1 else 2
  ⟨4 * mantissa - below, 4 * mantissa + 2, mantissa % 2 = 0⟩

def tenPower (exponent : Int) : Nat × Nat :=
  match exponent with
  | .ofNat e => (Nat.pow 10 e, 1)
  | .negSucc e => (1, Nat.pow 10 (e + 1))

/-- Whether the decimal `candidate * 10 ^ place` rounds to the double `mantissa * 2 ^ exponent`. -/
def roundsTo (mantissa : Nat) (exponent : Int) (candidate : Nat) (place : Int) : Bool :=
  let interval := roundingInterval mantissa exponent
  let (unitNum, unitDen) := Binary64.quotient 1 exponent
  let (tenNum, tenDen) := tenPower place
  let point := 4 * candidate * tenNum * unitDen
  let low := interval.low * unitNum * tenDen
  let high := interval.high * unitNum * tenDen
  if interval.closed then low ≤ point && point ≤ high else low < point && point < high

/-- The neighbour of the value on the grid `10 ^ place` that rounds to it. Of two, the nearer is
taken, and the upper one if both are equally near. -/
def onGrid? (mantissa : Nat) (exponent : Int) (place : Int) : Option Scientific :=
  let (num, den) := Binary64.quotient mantissa exponent
  let (tenNum, tenDen) := tenPower place
  let scaledNum := num * tenDen
  let scaledDen := den * tenNum
  let down := scaledNum / scaledDen
  let remainder := scaledNum % scaledDen
  let downFits := roundsTo mantissa exponent down place
  let upFits := roundsTo mantissa exponent (down + 1) place
  if downFits && (!upFits || 2 * remainder < scaledDen) then some ⟨down, place⟩
  else if upFits then some ⟨down + 1, place⟩
  else none

/-- The shortest decimal that reads back to `mantissa * 2 ^ exponent`, for a positive mantissa. The
first grid is one power of ten above the value, where only the upper neighbour counts; the last has
seventeen digits, and one of its points always reads back. -/
def shortest (mantissa : Nat) (exponent : Int) : Scientific :=
  let (num, den) := Binary64.quotient mantissa exponent
  let leading := leadingExponent num den
  let grids := (List.range 18).map fun (n : Nat) => leading + 1 - (n : Int)
  (grids.findSome? (onGrid? mantissa exponent)).getD ⟨0, 0⟩

end DiagramScope.Decimal
