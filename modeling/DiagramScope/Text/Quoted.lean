/-!
Quoted text on one line. A quote inside the text is written twice, and a line feed or carriage
return cannot be written. Main statements: reading the inside of a written text gives it back and
stops behind its closing quote, and where the line ends in front of the quote, it stops there.
-/

set_option autoImplicit false
set_option relaxedAutoImplicit false

namespace DiagramScope.Text.Quoted

def double (quote : Char) : List Char → List Char
  | [] => []
  | c :: rest => if c = quote then quote :: quote :: double quote rest else c :: double quote rest

theorem double_append (quote : Char) (first second : List Char) :
    double quote (first ++ second) = double quote first ++ double quote second := by
  induction first with
  | nil => rfl
  | cons c rest ih =>
    simp only [List.cons_append, double, ih]
    split <;> rfl

def encode (quote : Char) (text : List Char) : List Char :=
  quote :: double quote text ++ [quote]

def isLineEnd (c : Char) : Bool := c = '\n' || c = '\r'

/-- What follows an opening quote: a text and its closing quote, or a line that ends first. The
length counts the characters read, with the closing quote and without the line end. -/
inductive Inside where
  | closed (text : List Char) (length : Nat)
  | unclosed (length : Nat)
  deriving DecidableEq, Repr

def Inside.prepend (c : Char) (taken : Nat) : Inside → Inside
  | .closed text length => .closed (c :: text) (taken + length)
  | .unclosed length => .unclosed (taken + length)

def Inside.prependAll (front : List Char) (taken : Nat) : Inside → Inside
  | .closed text length => .closed (front ++ text) (taken + length)
  | .unclosed length => .unclosed (taken + length)

theorem Inside.prepend_prependAll (c : Char) (front : List Char) (taken more : Nat)
    (found : Inside) : (found.prependAll front more).prepend c taken =
      found.prependAll (c :: front) (taken + more) := by
  cases found <;> simp [prepend, prependAll, Nat.add_assoc]

def inside (quote : Char) : List Char → Inside
  | [] => .unclosed 0
  | c :: rest =>
    if c = quote then
      match rest with
      | d :: more => if d = quote then (inside quote more).prepend quote 2 else .closed [] 1
      | [] => .closed [] 1
    else if isLineEnd c then .unclosed 0
    else (inside quote rest).prepend c 1

theorem inside_cons_of_ne {quote c : Char} (h : c ≠ quote) (rest : List Char) :
    inside quote (c :: rest) =
      if isLineEnd c then .unclosed 0 else (inside quote rest).prepend c 1 := by
  rw [inside.eq_def]
  simp [h]

/-- Reading goes through a written text on one line to its end, whatever stands there. -/
theorem inside_double_append {quote : Char} {text : List Char}
    (hline : ∀ c ∈ text, isLineEnd c = false) (rest : List Char) :
    inside quote (double quote text ++ rest) =
      (inside quote rest).prependAll text (double quote text).length := by
  induction text with
  | nil => cases h : inside quote rest <;> simp [double, h, Inside.prependAll]
  | cons c text ih =>
    have ih := ih fun d hd => hline d (List.mem_cons_of_mem c hd)
    by_cases h : c = quote
    · have hstep : inside quote (quote :: quote :: (double quote text ++ rest)) =
          (inside quote (double quote text ++ rest)).prepend quote 2 := by simp [inside]
      simp only [double, h, if_true, List.cons_append, hstep, ih, Inside.prepend_prependAll,
        List.length_cons]
      congr 1
      omega
    · have hstep : inside quote (c :: (double quote text ++ rest)) =
          (inside quote (double quote text ++ rest)).prepend c 1 := by
        rw [inside_cons_of_ne h, hline c List.mem_cons_self]
        rfl
      simp only [double, h, if_false, List.cons_append, hstep, ih, Inside.prepend_prependAll,
        List.length_cons]
      congr 1
      omega

theorem inside_double {quote : Char} {text rest : List Char}
    (hline : ∀ c ∈ text, isLineEnd c = false) (hrest : ∀ d more, rest = d :: more → d ≠ quote) :
    inside quote (double quote text ++ quote :: rest) =
      .closed text ((double quote text).length + 1) := by
  have hclosed : inside quote (quote :: rest) = .closed [] 1 := by
    cases rest with
    | nil => simp [inside]
    | cons d more => simp [inside, hrest d more rfl]
  rw [inside_double_append hline, hclosed, Inside.prependAll, List.append_nil]

/-- A text is not closed in front of the end of its line. -/
theorem inside_double_lineEnd {quote lineEnd : Char} {text : List Char}
    (hquote : isLineEnd quote = false) (hline : ∀ c ∈ text, isLineEnd c = false)
    (hend : isLineEnd lineEnd = true) (rest : List Char) :
    inside quote (double quote text ++ lineEnd :: rest) =
      .unclosed (double quote text).length := by
  have hne : lineEnd ≠ quote := by
    rintro rfl
    cases hquote.symm.trans hend
  rw [inside_double_append hline, inside_cons_of_ne hne, if_pos hend]
  rfl

end DiagramScope.Text.Quoted
