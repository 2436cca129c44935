import DiagramScope.Decimal.Reading
import DiagramScope.Toml.Value

/-!
TOML values that are one word: booleans, integers in four bases, and floats.
-/

set_option autoImplicit false
set_option relaxedAutoImplicit false

namespace DiagramScope.Toml.Scalar

def digits? (isDigit : Char → Bool) : List Char → Option (List Char)
  | [] => none
  | [c] => if isDigit c then some [c] else none
  | c :: '_' :: rest => if isDigit c then (digits? isDigit rest).map (c :: ·) else none
  | c :: rest => if isDigit c then (digits? isDigit rest).map (c :: ·) else none

def digitValue (c : Char) : Nat :=
  if c.isDigit then c.toNat - '0'.toNat
  else if 'a' ≤ c && c ≤ 'f' then c.toNat - 'a'.toNat + 10
  else if 'A' ≤ c && c ≤ 'F' then c.toNat - 'A'.toNat + 10
  else 16

def isDigitOf (base : Nat) (c : Char) : Bool := digitValue c < base

def natural (base : Nat) (digits : List Char) : Nat :=
  digits.foldl (fun acc c => base * acc + digitValue c) 0

/-- Decimal digits without a zero in front of others. -/
def wholeDigits? (cs : List Char) : Option (List Char) :=
  match digits? Char.isDigit cs with
  | some ('0' :: _ :: _) => none
  | other => other

/-- An integer without a sign. Only decimal ones may follow a sign. -/
def integer? (signed : Bool) (cs : List Char) : Option Nat :=
  match signed, cs with
  | false, '0' :: 'x' :: rest => (digits? (isDigitOf 16) rest).map (natural 16)
  | false, '0' :: 'o' :: rest => (digits? (isDigitOf 8) rest).map (natural 8)
  | false, '0' :: 'b' :: rest => (digits? (isDigitOf 2) rest).map (natural 2)
  | _, _ => (wholeDigits? cs).map (natural 10)

def exponent? : List Char → Option Int
  | '+' :: rest => (digits? Char.isDigit rest).map (Decimal.signedExponent false)
  | '-' :: rest => (digits? Char.isDigit rest).map (Decimal.signedExponent true)
  | rest => (digits? Char.isDigit rest).map (Decimal.signedExponent false)

def isExponentMark (c : Char) : Bool := c = 'e' || c = 'E'

def finite? (x : Float) : Option Float := if x.isInf then none else some x

/-- A float without a sign: whole digits with a fraction, an exponent, or both. -/
def float? (cs : List Char) : Option Float :=
  if cs = ['i', 'n', 'f'] then some (Float.ofBits 0x7FF0000000000000)
  else if cs = ['n', 'a', 'n'] then some (Float.ofBits 0x7FF8000000000000)
  else
    let isExponentFree := fun c => !isExponentMark c
    let mantissa := cs.takeWhile isExponentFree
    let exponentPart := cs.dropWhile isExponentFree
    let wholePart := mantissa.takeWhile (· ≠ '.')
    let fractionPart := mantissa.dropWhile (· ≠ '.')
    let fraction : Option (List Char) := match fractionPart with
      | [] => some []
      | _ :: rest => digits? Char.isDigit rest
    let exponent : Option Int := match exponentPart with
      | [] => some 0
      | _ :: rest => exponent? rest
    if fractionPart.isEmpty && exponentPart.isEmpty then none
    else
      match wholeDigits? wholePart, fraction, exponent with
      | some whole, some fraction, some exponent =>
        finite? (Decimal.ofParts whole fraction exponent)
      | _, _, _ => none

def number? (signed negative : Bool) (cs : List Char) : Option Value :=
  match integer? signed cs with
  | some n => some (.integer (if negative then -(n : Int) else (n : Int)))
  | none => (float? cs).map fun x => .float (if negative then -x else x)

def value? (word : List Char) : Option Value :=
  if word = ['t', 'r', 'u', 'e'] then some (.boolean true)
  else if word = ['f', 'a', 'l', 's', 'e'] then some (.boolean false)
  else
    match word with
    | '+' :: rest => number? true false rest
    | '-' :: rest => number? true true rest
    | _ => number? false false word

end DiagramScope.Toml.Scalar
