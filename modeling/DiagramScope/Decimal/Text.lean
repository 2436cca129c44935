import DiagramScope.Decimal.Shortest

/-!
Decimal text of doubles: the shortest digits that read back, always positional, without a point
if the number is whole.
-/

set_option autoImplicit false
set_option relaxedAutoImplicit false

namespace DiagramScope.Decimal

def natDigits (n : Nat) : List Char := Nat.toDigits 10 n

def Scientific.positional (s : Scientific) : List Char :=
  let digits := natDigits s.digits
  match s.exponent with
  | .ofNat zeros => digits ++ List.replicate zeros '0'
  | .negSucc n =>
    let places := n + 1
    if places < digits.length then
      digits.take (digits.length - places) ++ '.' :: digits.drop (digits.length - places)
    else
      '0' :: '.' :: List.replicate (places - digits.length) '0' ++ digits

def magnitude (mantissa : Nat) (exponent : Int) : List Char :=
  if mantissa = 0 then ['0'] else (shortest mantissa exponent).positional

def signed (negative : Bool) (text : List Char) : List Char :=
  if negative then '-' :: text else text

/-- The plain text of a double: `0.1`, `-0`, `1000000000000000000000`, `NaN`, `inf`, `-inf`. -/
def plain (x : Float) : String :=
  match Binary64.ofFloat x with
  | .nan => "NaN"
  | .infinite negative => String.ofList (signed negative ['i', 'n', 'f'])
  | .finite negative mantissa exponent =>
    String.ofList (signed negative (magnitude mantissa exponent))

end DiagramScope.Decimal
