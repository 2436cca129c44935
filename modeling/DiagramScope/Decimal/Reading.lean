import DiagramScope.Decimal.Rounding

/-!
Reading decimal text as a double, correctly rounded: digits before and after the point and an
exponent of any size.
-/

set_option autoImplicit false
set_option relaxedAutoImplicit false

namespace DiagramScope.Decimal

def digitValue (c : Char) : Nat := c.toNat - '0'.toNat

def natOfDigits (digits : List Char) : Nat :=
  digits.foldl (fun acc c => 10 * acc + digitValue c) 0

/-- The double nearest to `mantissa * 10 ^ exponent`. Exponents far outside the range of doubles
are settled by the place of the leading digit, so that no huge power of ten is computed. -/
def nearest (mantissa : Nat) (exponent : Int) : Float :=
  let top := exponent + ((Nat.toDigits 10 mantissa).length : Int)
  if mantissa = 0 || top < -330 then Float.ofBits 0
  else if 310 < top then Float.ofBits 0x7FF0000000000000
  else
    match exponent with
    | .ofNat e => nearestTo (mantissa * Nat.pow 10 e) 1
    | .negSucc e => nearestTo mantissa (Nat.pow 10 (e + 1))

def ofParts (whole fraction : List Char) (exponent : Int) : Float :=
  nearest (natOfDigits (whole ++ fraction)) (exponent - (fraction.length : Int))

def spanDigits (cs : List Char) : List Char × List Char :=
  (cs.takeWhile Char.isDigit, cs.dropWhile Char.isDigit)

structure Literal where
  whole : List Char
  fraction : List Char
  /-- The number of characters before the exponent. -/
  length : Nat
  deriving DecidableEq, Repr

/-- Reads digits with an optional point, or a point with digits: `3`, `2.5`, `4.`, `.5`. -/
def literal? (cs : List Char) : Option Literal :=
  let (whole, rest) := spanDigits cs
  match rest with
  | '.' :: more =>
    let (fraction, _) := spanDigits more
    if whole.isEmpty && fraction.isEmpty then none
    else some ⟨whole, fraction, whole.length + 1 + fraction.length⟩
  | _ => if whole.isEmpty then none else some ⟨whole, [], whole.length⟩

def signedExponent (negative : Bool) (digits : List Char) : Int :=
  if negative then -(natOfDigits digits : Int) else (natOfDigits digits : Int)

/-- Reads an exponent mark, an optional sign and digits. Gives the exponent and its length. -/
def exponent? (isMark : Char → Bool) : List Char → Option (Int × Nat)
  | mark :: '+' :: rest => ofDigits mark false rest 2
  | mark :: '-' :: rest => ofDigits mark true rest 2
  | mark :: rest => ofDigits mark false rest 1
  | [] => none
where
  ofDigits (mark : Char) (negative : Bool) (rest : List Char) (taken : Nat) :
      Option (Int × Nat) :=
    let (digits, _) := spanDigits rest
    if isMark mark && !digits.isEmpty then
      some (signedExponent negative digits, taken + digits.length)
    else none

def unsigned? (cs : List Char) : Option Float :=
  if cs = ['N', 'a', 'N'] then some (Float.ofBits 0x7FF8000000000000)
  else if cs = ['i', 'n', 'f'] then some (Float.ofBits 0x7FF0000000000000)
  else
    match literal? cs with
    | none => none
    | some lit =>
      match cs.drop lit.length with
      | [] => some (ofParts lit.whole lit.fraction 0)
      | rest =>
        match exponent? (fun c => c = 'e' || c = 'E') rest with
        | some (e, n) => if rest.length = n then some (ofParts lit.whole lit.fraction e) else none
        | none => none

/-- Reads the plain text of a double; an exponent is accepted too. -/
def read? (text : String) : Option Float :=
  match text.toList with
  | '-' :: rest => (unsigned? rest).map fun x => -x
  | '+' :: rest => unsigned? rest
  | cs => unsigned? cs

end DiagramScope.Decimal
