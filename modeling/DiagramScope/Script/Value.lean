import DiagramScope.Decimal.Text
import DiagramScope.OrderedMap
import DiagramScope.Text.Quoted

/-!
Values of the statement language, their views as cells, and the text in which they are shown.
-/

set_option autoImplicit false
set_option relaxedAutoImplicit false

namespace DiagramScope.Script

/-- A value. A row of one cell is written as its cell, and a row of none as the empty matrix; rows
of any length are values all the same. -/
inductive Value where
  | empty
  | number (value : Float)
  | row (cells : List Float)
  | bool (value : Bool)
  | text (content : String)
  | texts (cells : List String)
  | list (items : List Value)
  deriving Repr

instance : Inhabited Value := ⟨.empty⟩

namespace Value

mutual

/-- Whether two values are the same, numbers with all their bits. -/
def same : Value → Value → Bool
  | empty, empty => true
  | number x, number y => x = y
  | row xs, row ys => xs = ys
  | bool a, bool b => a = b
  | text s, text t => s = t
  | texts ss, texts ts => ss = ts
  | list vs, list ws => sameAll vs ws
  | _, _ => false

def sameAll : List Value → List Value → Bool
  | [], [] => true
  | v :: vs, w :: ws => same v w && sameAll vs ws
  | _, _ => false

end

mutual

private theorem same_iff (v w : Value) : same v w = true ↔ v = w := by
  cases v with
  | list vs =>
    cases w with
    | list ws => rw [same, sameAll_iff vs ws, list.injEq]
    | _ => simp [same]
  | _ => cases w <;> simp [same]

private theorem sameAll_iff (vs ws : List Value) : sameAll vs ws = true ↔ vs = ws := by
  cases vs with
  | nil => cases ws <;> simp [sameAll]
  | cons v vs =>
    cases ws with
    | nil => simp [sameAll]
    | cons w ws => rw [sameAll, Bool.and_eq_true, same_iff v w, sameAll_iff vs ws, List.cons.injEq]

end

instance : DecidableEq Value := fun v w => decidable_of_iff _ (same_iff v w)

end Value

/-- Variables by name, in the order of their first assignment. -/
abbrev Bindings := OrderedMap String Value

namespace Value

def typeName : Value → String
  | empty => "empty matrix"
  | number _ => "number"
  | row _ => "row vector"
  | bool _ => "boolean"
  | text _ => "string"
  | texts _ => "string vector"
  | list _ => "list"

/-- The value of a row of numbers, which is no row if there are fewer than two. -/
def ofNumbers : List Float → Value
  | [] => empty
  | [x] => number x
  | cells => row cells

def ofTexts : List String → Value
  | [] => empty
  | [s] => text s
  | cells => texts cells

def ofTruth (b : Bool) : Float := if b then 1 else 0

/-- The cells of a numeric value, with booleans read as numbers. -/
def numbers? : Value → Option (List Float)
  | empty => some []
  | number x => some [x]
  | row cells => some cells
  | bool b => some [ofTruth b]
  | _ => none

def texts? : Value → Option (List String)
  | text s => some [s]
  | texts cells => some cells
  | _ => none

def number? : Value → Option Float
  | number x => some x
  | _ => none

/-- Whole numbers from here on are shown like other numbers. -/
def wholeLimit : Nat := 1000000000000000

def integerText : Int → List Char
  | .ofNat n => Decimal.natDigits n
  | .negSucc n => '-' :: Decimal.natDigits (n + 1)

/-- A number as it is written in statements. A whole number has no fraction and zero has no sign. -/
def numberText (x : Float) : List Char :=
  let exact := Decimal.Binary64.ofFloat x
  match exact with
  | .nan => ['N', 'a', 'n']
  | .infinite negative => Decimal.signed negative ['I', 'n', 'f']
  | .finite negative mantissa exponent =>
    match exact.toInt? with
    | some n =>
      if n.natAbs < wholeLimit then integerText n
      else Decimal.signed negative (Decimal.magnitude mantissa exponent)
    | none => Decimal.signed negative (Decimal.magnitude mantissa exponent)

def quoted (s : String) : List Char := Text.Quoted.encode '"' s.toList

def commaSeparated : List (List Char) → List Char
  | [] => []
  | [only] => only
  | first :: rest => first ++ ',' :: commaSeparated rest

def bracketed (items : List (List Char)) : List Char := '[' :: commaSeparated items ++ [']']

mutual

def written : Value → List Char
  | empty => ['[', ']']
  | number x => numberText x
  | row cells => bracketed (cells.map numberText)
  | bool true => ['%', 't']
  | bool false => ['%', 'f']
  | text s => quoted s
  | texts cells => bracketed (cells.map quoted)
  | list items => ['l', 'i', 's', 't', '('] ++ commaSeparated (writtenAll items) ++ [')']

def writtenAll : List Value → List (List Char)
  | [] => []
  | v :: rest => written v :: writtenAll rest

end

/-- The text of a value, on one line. -/
def display (v : Value) : String := String.ofList v.written

end Value

end DiagramScope.Script
