import DiagramScope.Proofs.Decimal.RoundTrip
import DiagramScope.Proofs.Script.Token.Lines
import Mathlib.Data.List.TakeWhile

/-!
Which tokens there are, and which texts they are read from. Main statements: names and texts in
tokens are on one line, and what is cut from a text written token by token are these tokens, if each
of them ends where the next begins.
-/

set_option autoImplicit false
set_option relaxedAutoImplicit false

namespace DiagramScope.Script

open Text (utf8Length)
open Text.Quoted (double isLineEnd inside Inside)

/-- Whether a text holds no line feed and no carriage return. -/
def OneLine (s : String) : Prop := ∀ c ∈ s.toList, isLineEnd c = false

def IsName (s : String) : Prop :=
  ∃ c more, s = String.ofList (c :: more) ∧ Lexer.isNameStart c = true ∧
    ∀ d ∈ more, Lexer.isNamePart d = true

def Token.Proper : Token → Prop
  | text content => OneLine content
  | name spelling => IsName spelling
  | _ => True

namespace Lexer

open Decimal (literal? exponent? spanDigits)

private theorem number?_of_not_digit {c : Char} (hdigit : c.isDigit = false) (hpoint : c ≠ '.')
    (rest : List Char) : number? (c :: rest) = none := by
  have hliteral : literal? (c :: rest) = none := by
    have hspan : spanDigits (c :: rest) = ([], c :: rest) := by
      unfold spanDigits
      rw [List.takeWhile_cons, List.dropWhile_cons, hdigit]
      rfl
    simp only [literal?, hspan]
    split
    · next more hmore => exact absurd (List.cons.inj hmore).1 hpoint
    · rfl
  unfold number?
  rw [hliteral]

private theorem toNat_of_isNameStart {c : Char} (h : isNameStart c = true) :
    (65 ≤ c.toNat ∧ c.toNat ≤ 90) ∨ (97 ≤ c.toNat ∧ c.toNat ≤ 122) ∨ c.toNat = 95 ∨
      c.toNat = 37 := by
  have hstart : c.isAlpha = true ∨ c = '_' ∨ c = '%' := by
    unfold isNameStart isAsciiLetter at h
    simp only [Bool.or_eq_true, decide_eq_true_eq] at h
    tauto
  rcases hstart with halpha | rfl | rfl
  · have hletter : (65 ≤ c.toNat ∧ c.toNat ≤ 90) ∨ (97 ≤ c.toNat ∧ c.toNat ≤ 122) := by
      change (decide (65 ≤ c.val ∧ c.val ≤ 90) ||
        (decide (97 ≤ c.val) && decide (c.val ≤ 122))) = true at halpha
      simpa [UInt32.le_iff_toNat_le] using halpha
    tauto
  · decide
  · decide

private theorem toNat_of_isDigit {c : Char} (h : c.isDigit = true) :
    48 ≤ c.toNat ∧ c.toNat ≤ 57 := by
  simpa [Char.isDigit, UInt32.le_iff_toNat_le] using h

private theorem not_digit_of_isNameStart {c : Char} (h : isNameStart c = true) :
    c.isDigit = false := by
  refine Bool.eq_false_iff.2 fun hdigit => ?_
  have hstart := toNat_of_isNameStart h
  have hdigits := toNat_of_isDigit hdigit
  omega

private theorem isLineEnd_of_isName {c : Char} (h : isNameStart c = true ∨ isNamePart c = true) :
    isLineEnd c = false := by
  refine Bool.eq_false_iff.2 fun hend => ?_
  have hline : c = '\n' ∨ c = '\r' := by simpa [isLineEnd] using hend
  rcases hline with rfl | rfl
  · revert h
    decide
  · revert h
    decide

/-- A token at the start of the text `c :: rest`, and the number of characters that it takes. -/
inductive Starts (c : Char) (rest : List Char) : Token → Nat → Prop where
  | comment {more : List Char} (hc : c = '/') (hrest : rest = '/' :: more) :
      Starts c rest (.comment (String.ofList (more.takeWhile (· ≠ '\n'))))
        ((more.takeWhile (· ≠ '\n')).length + 2)
  | text {content : List Char} {length : Nat} (hc : c = '"' ∨ c = '\'')
      (h : inside c rest = .closed content length) :
      Starts c rest (.text (String.ofList content)) (length + 1)
  | number {value : Float} {length : Nat} (h : number? (c :: rest) = some (value, length)) :
      Starts c rest (.number value) length
  | name (hc : isNameStart c = true) :
      Starts c rest (.name (String.ofList (c :: rest.takeWhile isNamePart)))
        ((rest.takeWhile isNamePart).length + 1)
  | symbol {s : Symbol} (hc : s.toChar = c) (hrest : c = '/' → rest.head? ≠ some '/') :
      Starts c rest (.symbol s) 1
  | newline (hc : c = '\n') : Starts c rest .newline 1
  | blank (hc : isInlineBlank c = true) :
      Starts c rest .blank ((rest.takeWhile isInlineBlank).length + 1)

private theorem toChar_of_ofChar? {c : Char} {s : Symbol} (h : Symbol.ofChar? c = some s) :
    s.toChar = c := by
  have hfound := List.find?_some h
  exact of_decide_eq_true hfound

private theorem starts_of_head {c : Char} {rest : List Char} {found : Token} {length : Nat}
    (h : head c rest = .token found length) : Starts c rest found length := by
  unfold head at h
  split at h
  · next hcomment =>
    simp only [Bool.and_eq_true, decide_eq_true_eq] at hcomment
    obtain ⟨more, hmore⟩ := List.head?_eq_some_iff.1 hcomment.2
    subst hmore
    cases h
    exact .comment hcomment.1 rfl
  · next hcomment =>
    split at h
    · next hquote =>
      split at h
      · next hinside =>
        cases h
        exact .text (by simpa using hquote) hinside
      · cases h
    · split at h
      · next hnumber =>
        cases h
        exact .number hnumber
      · split at h
        · next hname =>
          cases h
          exact .name hname
        · split at h
          · next hsymbol =>
            cases h
            refine .symbol (toChar_of_ofChar? hsymbol) fun hslash hhead => hcomment ?_
            simp [hslash, hhead]
          · split at h
            · next hline =>
              cases h
              exact .newline hline
            · split at h
              · next hblank =>
                cases h
                exact .blank hblank
              · cases h

private theorem other_of_isBlank {c : Char} (h : Text.isBlank c = true) :
    (c ≠ '/' ∧ c ≠ '"' ∧ c ≠ '\'' ∧ c ≠ '.') ∧ c.isDigit = false ∧ isNameStart c = false ∧
      Symbol.ofChar? c = none := by
  have hne {d : Char} (hd : Text.isBlank d = false) : c ≠ d := by
    rintro rfl
    rw [h] at hd
    cases hd
  have hrange := h
  simp only [Text.isBlank, Text.blankRanges, List.any_cons, List.any_nil, Bool.or_eq_true,
    Bool.and_eq_true, decide_eq_true_eq, Bool.or_false] at hrange
  refine ⟨⟨hne (by decide), hne (by decide), hne (by decide), hne (by decide)⟩, ?_, ?_, ?_⟩
  · refine Bool.eq_false_iff.2 fun hdigit => ?_
    have hdigits := toNat_of_isDigit hdigit
    omega
  · refine Bool.eq_false_iff.2 fun hstart => ?_
    have hletter := toNat_of_isNameStart hstart
    omega
  · refine Option.eq_none_iff_forall_ne_some.2 fun s hs => ?_
    have hc := toChar_of_ofChar? hs
    subst hc
    cases s <;> exact absurd h (by decide)

theorem head_eq_token_iff {c : Char} {rest : List Char} {found : Token} {length : Nat} :
    head c rest = .token found length ↔ Starts c rest found length := by
  refine ⟨starts_of_head, fun h => ?_⟩
  cases h with
  | comment hc hrest =>
    subst hc hrest
    rfl
  | text hc h =>
    have hslash : c ≠ '/' := by
      rcases hc with rfl | rfl <;> decide
    unfold head
    simp [hslash, hc, h]
  | number h =>
    have hother : c ≠ '/' ∧ c ≠ '"' ∧ c ≠ '\'' := by
      refine ⟨?_, ?_, ?_⟩
      all_goals
        rintro rfl
        rw [number?_of_not_digit rfl (by decide)] at h
        cases h
    obtain ⟨hslash, hdouble, hsingle⟩ := hother
    unfold head
    simp [hslash, hdouble, hsingle, h]
  | name hc =>
    have hother : c ≠ '/' ∧ c ≠ '"' ∧ c ≠ '\'' ∧ c ≠ '.' := by
      refine ⟨?_, ?_, ?_, ?_⟩
      all_goals
        rintro rfl
        cases hc
    obtain ⟨hslash, hdouble, hsingle, hpoint⟩ := hother
    have hnumber := number?_of_not_digit (not_digit_of_isNameStart hc) hpoint rest
    unfold head
    simp [hslash, hdouble, hsingle, hnumber, hc]
  | @symbol s hc hrest =>
    subst hc
    have hother : s.toChar ≠ '"' ∧ s.toChar ≠ '\'' ∧ s.toChar ≠ '.' ∧ s.toChar.isDigit = false ∧
        isNameStart s.toChar = false := by
      cases s <;> decide
    obtain ⟨hdouble, hsingle, hpoint, hdigit, hstart⟩ := hother
    have hnumber := number?_of_not_digit hdigit hpoint rest
    have hcomment : ¬ (s.toChar = '/' && rest.head? = some '/') = true := by
      simpa using hrest
    unfold head
    rw [if_neg hcomment]
    simp [hdouble, hsingle, hnumber, hstart, Symbol.ofChar?_toChar]
  | newline hc =>
    subst hc
    exact head_lineFeed rest
  | blank hc =>
    have hblank := hc
    simp only [isInlineBlank, Bool.and_eq_true, decide_eq_true_eq] at hblank
    obtain ⟨⟨hslash, hdouble, hsingle, hpoint⟩, hdigit, hstart, hsymbol⟩ :=
      other_of_isBlank hblank.1
    have hnumber := number?_of_not_digit hdigit hpoint rest
    unfold head
    simp [hslash, hdouble, hsingle, hnumber, hstart, hsymbol, hblank.2, hc]

theorem closed_of_prepend {c : Char} {taken length : Nat} {found : Inside}
    {content : List Char} (h : found.prepend c taken = .closed content length) :
    ∃ text length', content = c :: text ∧ found = .closed text length' ∧
      length = taken + length' := by
  cases found with
  | closed text length' =>
    obtain ⟨rfl, rfl⟩ := Inside.closed.inj h
    exact ⟨text, length', rfl, rfl, rfl⟩
  | unclosed length' => cases h

private theorem isLineEnd_of_inside {quote : Char} (hquote : isLineEnd quote = false)
    {cs content : List Char} {length : Nat} (h : inside quote cs = .closed content length) :
    ∀ c ∈ content, isLineEnd c = false := by
  fun_induction inside quote cs generalizing content length with
  | case1 => cases h
  | case2 more ih =>
    obtain ⟨text, length', rfl, hmore, -⟩ := closed_of_prepend h
    exact List.forall_mem_cons.2 ⟨hquote, ih hmore⟩
  | case3 d more hd =>
    cases h
    intro c hc
    cases hc
  | case4 =>
    cases h
    intro c hc
    cases hc
  | case5 => cases h
  | case6 c rest hc hline ih =>
    obtain ⟨text, length', rfl, hmore, -⟩ := closed_of_prepend h
    exact List.forall_mem_cons.2 ⟨Bool.eq_false_iff.2 hline, ih hmore⟩

private theorem proper_of_head {c : Char} {rest : List Char} {found : Token} {length : Nat}
    (h : head c rest = .token found length) : found.Proper := by
  cases head_eq_token_iff.1 h with
  | text hc hinside =>
    have hline : isLineEnd c = false := by
      rcases hc with rfl | rfl <;> rfl
    intro d hd
    rw [String.toList_ofList] at hd
    exact isLineEnd_of_inside hline hinside d hd
  | name hc => exact ⟨c, _, rfl, hc, fun d hd => List.mem_takeWhile_imp hd⟩
  | _ => trivial

private theorem proper_of_pieces {position skip : Nat} {cs : List Char} {l : Lexeme}
    (h : .lexeme l ∈ pieces position skip cs) : l.token.Proper := by
  induction cs generalizing position skip with
  | nil => cases skip <;> cases h
  | cons c rest ih =>
    cases skip with
    | succ skip => exact ih h
    | zero =>
      simp only [pieces] at h
      rcases List.mem_cons.1 h with hfirst | hmore
      · cases hhead : head c rest with
        | token found length =>
          rw [hhead] at hfirst
          obtain rfl := Piece.lexeme.inj hfirst
          exact proper_of_head hhead
        | unclosedText length => rw [hhead] at hfirst; cases hfirst
        | stray => rw [hhead] at hfirst; cases hfirst
      · exact ih hmore

end Lexer

theorem IsName.oneLine {s : String} (h : IsName s) : OneLine s := by
  obtain ⟨c, more, rfl, hstart, hmore⟩ := h
  intro d hd
  rw [String.toList_ofList] at hd
  rcases List.mem_cons.1 hd with rfl | hd
  · exact Lexer.isLineEnd_of_isName (.inl hstart)
  · exact Lexer.isLineEnd_of_isName (.inr (hmore d hd))

theorem proper_of_tokenize {source : String} {ls : List Lexeme} (h : tokenize source = .ok ls) :
    ∀ l ∈ ls, l.token.Proper := by
  obtain ⟨-, rfl⟩ := tokenize_eq_ok_iff.1 h
  intro l hl
  obtain ⟨piece, hpiece, hl⟩ := List.mem_filterMap.1 hl
  cases piece with
  | lexeme l' =>
    obtain rfl := Option.some.inj hl
    exact Lexer.proper_of_pieces hpiece
  | fault fault => cases hl

namespace Lexer

open Decimal (literal? exponent? spanDigits pointed Spelled)

/-- The text `cs` in front of `rest` is cut into the tokens `ts`, wherever it stands. -/
def Reads (cs : List Char) (ts : List Token) (rest : List Char) : Prop :=
  ∀ position, ∃ ls : List Lexeme, ls.map Lexeme.token = ts ∧
    pieces position 0 (cs ++ rest) =
      ls.map .lexeme ++ pieces (position + utf8Length cs) 0 rest

theorem Reads.append {first second rest : List Char} {ts us : List Token}
    (hfirst : Reads first ts (second ++ rest)) (hsecond : Reads second us rest) :
    Reads (first ++ second) (ts ++ us) rest := by
  intro position
  obtain ⟨ls, rfl, hls⟩ := hfirst position
  obtain ⟨ms, rfl, hms⟩ := hsecond (position + utf8Length first)
  refine ⟨ls ++ ms, List.map_append, ?_⟩
  rw [List.append_assoc, hls, hms, List.map_append, List.append_assoc, Text.utf8Length_append,
    Nat.add_assoc]

theorem pieces_of_head {position : Nat} {c : Char} {more rest : List Char} {found : Token}
    (h : head c (more ++ rest) = .token found (more.length + 1)) :
    pieces position 0 (c :: (more ++ rest)) =
      .lexeme ⟨found, .between position (position + utf8Length (c :: more))⟩ ::
        pieces (position + utf8Length (c :: more)) 0 rest := by
  have htaken : (c :: (more ++ rest)).take (more.length + 1) = c :: more := by simp
  rw [pieces_cons, h]
  simp only [Head.piece, htaken, Nat.add_sub_cancel, pieces_length_append, Text.utf8Length_cons,
    Nat.add_assoc]

private theorem Reads.of_head {c : Char} {more rest : List Char} {found : Token}
    (h : head c (more ++ rest) = .token found (more.length + 1)) :
    Reads (c :: more) [found] rest := by
  intro position
  exact ⟨[⟨found, .between position (position + utf8Length (c :: more))⟩], rfl, pieces_of_head h⟩

def Stops (p : Char → Bool) (rest : List Char) : Prop := ∀ c more, rest = c :: more → p c = false

theorem Stops.takeWhile {p : Char → Bool} {rest : List Char} (h : Stops p rest) :
    rest.takeWhile p = [] := by
  cases rest with
  | nil => rfl
  | cons c more => rw [List.takeWhile_cons, h c more rfl]; rfl

theorem Stops.dropWhile {p : Char → Bool} {rest : List Char} (h : Stops p rest) :
    rest.dropWhile p = rest := by
  cases rest with
  | nil => rfl
  | cons c more => rw [List.dropWhile_cons, h c more rfl]; rfl

theorem Stops.cons {p : Char → Bool} {c : Char} (h : p c = false) (more : List Char) :
    Stops p (c :: more) := by
  intro c' more' hc
  obtain ⟨rfl, -⟩ := List.cons.inj hc
  exact h

private theorem Stops.mono {p q : Char → Bool} {rest : List Char} (h : Stops p rest)
    (hpq : ∀ c, p c = false → q c = false) : Stops q rest :=
  fun c more hc => hpq c (h c more hc)

private theorem spanDigits_append {digits rest : List Char}
    (hdigits : ∀ c ∈ digits, c.isDigit = true)
    (hrest : Stops Char.isDigit rest) : spanDigits (digits ++ rest) = (digits, rest) := by
  unfold spanDigits
  rw [List.takeWhile_append_of_pos hdigits, List.dropWhile_append_of_pos hdigits, hrest.takeWhile,
    hrest.dropWhile, List.append_nil]

def isNumberPart (c : Char) : Bool := isNamePart c || c = '.'

private theorem isDigit_of_isNumberPart {c : Char} (h : isNumberPart c = false) :
    c.isDigit = false := by
  unfold isNumberPart isNamePart at h
  cases hc : c.isDigit with
  | false => rfl
  | true => simp [hc] at h

private theorem isExponentMark_of_isNumberPart {c : Char} (h : isNumberPart c = false) :
    isExponentMark c = false := by
  cases hc : isExponentMark c with
  | false => rfl
  | true =>
    have hmark : c = 'e' ∨ c = 'E' ∨ c = 'd' ∨ c = 'D' := by
      unfold isExponentMark at hc
      simp only [Bool.or_eq_true, decide_eq_true_eq] at hc
      tauto
    rcases hmark with rfl | rfl | rfl | rfl <;> cases h

/-- A number literal is read as a whole if what follows cannot continue it. -/
theorem number?_of_spelled {text whole fraction rest : List Char} {x : Float}
    (h : Spelled text x whole fraction) (hrest : Stops isNumberPart rest) :
    number? (text ++ rest) = some (x, text.length) := by
  have hdigit : Stops Char.isDigit rest := hrest.mono fun _ => isDigit_of_isNumberPart
  have hliteral : literal? (text ++ rest) = some ⟨whole, fraction, text.length⟩ := by
    rw [h.text_eq]
    unfold pointed
    cases fraction with
    | nil =>
      have hspan := spanDigits_append h.isDigit_whole hdigit
      have hne : whole.isEmpty = false := List.isEmpty_eq_false_iff.2 h.whole_ne_nil
      simp only [List.isEmpty_nil, if_true, literal?, hspan]
      split
      · cases hrest '.' _ rfl
      · rw [if_neg (by rw [hne]; exact Bool.false_ne_true)]
    | cons d more =>
      have hpoint : Stops Char.isDigit ('.' :: (d :: more ++ rest)) := .cons rfl _
      have hspan := spanDigits_append h.isDigit_whole hpoint
      have hfraction := spanDigits_append h.isDigit_fraction hdigit
      simp only [List.isEmpty_cons, Bool.false_eq_true, if_false, literal?, List.append_assoc,
        List.cons_append] at hspan hfraction ⊢
      rw [hspan]
      simp only [hfraction, List.isEmpty_cons, Bool.and_false, Bool.false_eq_true, if_false]
      congr 2
      simp [Nat.add_assoc, Nat.add_comm 1]
  have hexponent : exponent? isExponentMark rest = none := by
    cases rest with
    | nil => rfl
    | cons c more =>
      exact exponent?_of_not_mark (isExponentMark_of_isNumberPart (hrest c more rfl)) more
  unfold number?
  simp only [hliteral, List.drop_left, hexponent, Option.getD_none, List.drop_zero, h.read,
    Nat.add_zero]
  cases rest with
  | nil => rfl
  | cons c more =>
    have hpart : isNamePart c = false := by
      have hc := hrest c more rfl
      unfold isNumberPart at hc
      exact (Bool.or_eq_false_iff.1 hc).1
    simp [hpart]

theorem reads_number {text whole fraction rest : List Char} {x : Float}
    (h : Spelled text x whole fraction) (hrest : Stops isNumberPart rest) :
    Reads text [.number x] rest := by
  have hnumber := number?_of_spelled h hrest
  obtain ⟨c, more, rfl, -⟩ := h.exists_cons
  exact .of_head (head_eq_token_iff.2 (.number hnumber))

theorem reads_name {c : Char} {more rest : List Char} (hstart : isNameStart c = true)
    (hmore : ∀ d ∈ more, isNamePart d = true) (hrest : Stops isNamePart rest) :
    Reads (c :: more) [.name (String.ofList (c :: more))] rest := by
  have hword : (more ++ rest).takeWhile isNamePart = more := by
    rw [List.takeWhile_append_of_pos hmore, hrest.takeWhile, List.append_nil]
  have hname : Starts c (more ++ rest) _ _ := .name hstart
  rw [hword] at hname
  exact .of_head (head_eq_token_iff.2 hname)

/-- Every symbol but the slash, which may begin a comment. -/
theorem reads_symbol {s : Symbol} (hs : s ≠ .slash) (rest : List Char) :
    Reads [s.toChar] [.symbol s] rest := by
  have hslash : s.toChar ≠ '/' := by
    cases s with
    | slash => exact absurd rfl hs
    | _ => decide
  exact .of_head (head_eq_token_iff.2 (.symbol rfl fun h => absurd h hslash))

theorem head_double {quote : Char} (hquote : quote = '"' ∨ quote = '\'') {content : String}
    (hline : OneLine content) {rest : List Char} (hrest : Stops (· = quote) rest) :
    head quote (double quote content.toList ++ [quote] ++ rest) =
      .token (.text content) ((double quote content.toList ++ [quote]).length + 1) := by
  have hinside := Text.Quoted.inside_double hline
    fun d more hd => of_decide_eq_false (hrest d more hd)
  have hclosed : double quote content.toList ++ quote :: rest =
      double quote content.toList ++ [quote] ++ rest := by simp
  rw [hclosed] at hinside
  have htext : Starts quote _ _ _ := .text hquote hinside
  rw [String.ofList_toList] at htext
  rw [head_eq_token_iff, List.length_append, List.length_singleton]
  exact htext

theorem reads_text {content : String} (hline : OneLine content) {rest : List Char}
    (hrest : Stops (· = '"') rest) :
    Reads (Text.Quoted.encode '"' content.toList) [.text content] rest :=
  .of_head (head_double (.inl rfl) hline hrest)

theorem reads_blank {rest : List Char} (hrest : Stops isInlineBlank rest) :
    Reads [' '] [.blank] rest := by
  have hblank : Starts ' ' rest _ _ := .blank (by decide)
  rw [hrest.takeWhile] at hblank
  exact .of_head (head_eq_token_iff.2 hblank)

end Lexer

/-- A text that is read token by token up to its end has these tokens. -/
theorem tokenize_of_reads {cs : List Char} {ts : List Token} (h : Lexer.Reads cs ts []) :
    ∃ ls, tokenize (String.ofList cs) = .ok ls ∧ ls.map Lexeme.token = ts := by
  obtain ⟨ls, hts, hpieces⟩ := h 0
  refine ⟨ls, tokenize_eq_ok_iff.2 ?_, hts⟩
  have hend : Lexer.pieces (0 + utf8Length cs) 0 [] = [] := rfl
  rw [List.append_nil, hend, List.append_nil] at hpieces
  rw [String.toList_ofList, hpieces]
  exact ⟨Lexer.faults_map_lexeme ls, Lexer.lexemes_map_lexeme ls⟩

end DiagramScope.Script
