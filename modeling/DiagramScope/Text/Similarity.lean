/-!
How alike two words are, from zero to one. Characters match if they are equal and stand at nearly
the same place; the measure is the mean of the matched parts of both words and of the part of the
matches that stand in the same order.
-/

set_option autoImplicit false
set_option relaxedAutoImplicit false

namespace DiagramScope.Text

/-- The distance in places up to which equal characters of words of two lengths match. -/
def matchRange (m n : Nat) : Nat := max m n / 2 - 1

/-- Marks the first free `c` whose place is at least `low` and below `high`. The flags tell which
characters are taken, and `place` is the place of the first of them. -/
def take? (c : Char) (low high : Nat) :
    (place : Nat) → List (Char × Bool) → Option (List (Char × Bool))
  | _, [] => none
  | place, (d, taken) :: rest =>
    if low ≤ place ∧ place < high ∧ d = c ∧ taken = false then some ((d, true) :: rest)
    else (take? c low high (place + 1) rest).map ((d, taken) :: ·)

/-- The characters of the first word from a place on that match, in order, and the characters of the
second word with those marked that were matched. -/
def matched (range : Nat) :
    (place : Nat) → List Char → List (Char × Bool) → List Char × List (Char × Bool)
  | _, [], second => ([], second)
  | place, c :: rest, second =>
    match take? c (place - range) (place + range + 1) 0 second with
    | some second =>
      let (found, second) := matched range (place + 1) rest second
      (c :: found, second)
    | none => matched range (place + 1) rest second

def differences (a b : List Char) : Nat := ((a.zip b).filter fun pair => pair.1 ≠ pair.2).length

def similarity (first second : String) : Float :=
  let a := first.toList
  let b := second.toList
  let (inFirst, marked) := matched (matchRange a.length b.length) 0 a (b.map fun c => (c, false))
  let inSecond := (marked.filter Prod.snd).map Prod.fst
  let count := inFirst.length
  let inOrder := count - differences inFirst inSecond / 2
  if a.isEmpty && b.isEmpty then 1
  else if count = 0 then 0
  else
    (Float.ofNat count / Float.ofNat a.length + Float.ofNat count / Float.ofNat b.length
      + Float.ofNat inOrder / Float.ofNat count) / 3

end DiagramScope.Text
