import DiagramScope.Proofs.Script.Shift

/-!
Cutting a text into tokens goes line by line: nothing that starts in front of a line feed reads
past it. Main statements: the head of a text does not depend on what follows a line feed, and the
pieces of two texts joined by a line feed are those of the first, the line feed, and those of the
second. Only a string that is not closed takes the line feed with it, which is a fault anyway.
-/

set_option autoImplicit false
set_option relaxedAutoImplicit false

namespace DiagramScope.Script

open Text (utf8Length)

section Runs

variable {p : Char → Bool}

private theorem takeWhile_append_lineFeed (hp : p '\n' = false) (cs more : List Char) :
    (cs ++ '\n' :: more).takeWhile p = cs.takeWhile p := by
  induction cs with
  | nil => simp [hp]
  | cons c rest ih =>
    simp only [List.cons_append, List.takeWhile_cons, ih]

private theorem dropWhile_append_lineFeed (hp : p '\n' = false) (cs more : List Char) :
    (cs ++ '\n' :: more).dropWhile p = cs.dropWhile p ++ '\n' :: more := by
  induction cs with
  | nil => simp [hp]
  | cons c rest ih =>
    simp only [List.cons_append, List.dropWhile_cons, ih]
    split <;> rfl

private theorem length_takeWhile_le (cs : List Char) : (cs.takeWhile p).length ≤ cs.length :=
  (List.takeWhile_sublist p).length_le

end Runs

namespace Lexer

open Decimal (Literal literal? exponent? spanDigits)

private theorem spanDigits_append_lineFeed (cs more : List Char) :
    spanDigits (cs ++ '\n' :: more) =
      ((spanDigits cs).1, (spanDigits cs).2 ++ '\n' :: more) := by
  have hdigit : Char.isDigit '\n' = false := by decide
  simp only [spanDigits, takeWhile_append_lineFeed hdigit, dropWhile_append_lineFeed hdigit]

private theorem length_spanDigits (cs : List Char) :
    (spanDigits cs).1.length + (spanDigits cs).2.length = cs.length := by
  have h := congrArg List.length (List.takeWhile_append_dropWhile (p := Char.isDigit) (l := cs))
  simpa only [spanDigits, List.length_append] using h

private theorem literal?_append_lineFeed (cs more : List Char) :
    literal? (cs ++ '\n' :: more) = literal? cs := by
  simp only [literal?, spanDigits_append_lineFeed]
  rcases h : (spanDigits cs).2 with _ | ⟨d, rest⟩
  · simp
  · by_cases hd : d = '.'
    · subst hd
      simp only [List.cons_append, spanDigits_append_lineFeed]
    · simp [hd]

private theorem length_le_of_literal? {cs : List Char} {lit : Literal}
    (h : literal? cs = some lit) : lit.length ≤ cs.length := by
  have hcs := length_spanDigits cs
  simp only [literal?] at h
  split at h
  · next more hrest =>
    have hmore := length_spanDigits more
    rw [hrest, List.length_cons] at hcs
    split at h
    · cases h
    · cases h
      simp only
      omega
  · split at h
    · cases h
    · cases h
      simp only
      omega

theorem exponent?_cons (isMark : Char → Bool) (mark : Char) (rest : List Char) :
    exponent? isMark (mark :: rest) =
      match rest with
      | '+' :: digits => exponent?.ofDigits isMark mark false digits 2
      | '-' :: digits => exponent?.ofDigits isMark mark true digits 2
      | _ => exponent?.ofDigits isMark mark false rest 1 := by
  unfold exponent?
  split <;> simp_all

theorem exponent?_of_not_mark {isMark : Char → Bool} {mark : Char}
    (h : isMark mark = false) (rest : List Char) : exponent? isMark (mark :: rest) = none := by
  rw [exponent?_cons]
  split <;> simp [exponent?.ofDigits, h]

private theorem exponent?_append_lineFeed (cs more : List Char) :
    exponent? isExponentMark (cs ++ '\n' :: more) = exponent? isExponentMark cs := by
  have hofDigits (mark : Char) (negative : Bool) (rest : List Char) (taken : Nat) :
      exponent?.ofDigits isExponentMark mark negative (rest ++ '\n' :: more) taken =
        exponent?.ofDigits isExponentMark mark negative rest taken := by
    simp only [exponent?.ofDigits, spanDigits_append_lineFeed]
  match cs with
  | [] => exact exponent?_of_not_mark (by decide) more
  | [mark] =>
    simp only [List.cons_append, List.nil_append, exponent?_cons]
    exact hofDigits mark false [] 1
  | mark :: sign :: rest =>
    simp only [List.cons_append, exponent?_cons]
    by_cases hplus : sign = '+'
    · subst hplus
      exact hofDigits mark false rest 2
    · by_cases hminus : sign = '-'
      · subst hminus
        exact hofDigits mark true rest 2
      · simpa [hplus, hminus] using hofDigits mark false (sign :: rest) 1

private theorem length_le_of_exponent? {cs : List Char} {e : Int} {taken : Nat}
    (h : exponent? isExponentMark cs = some (e, taken)) : taken ≤ cs.length := by
  have hofDigits {mark : Char} {negative : Bool} {rest : List Char} {skipped : Nat}
      (h : exponent?.ofDigits isExponentMark mark negative rest skipped = some (e, taken)) :
      taken ≤ skipped + rest.length := by
    have hrest := length_spanDigits rest
    simp only [exponent?.ofDigits] at h
    split at h
    · cases h
      omega
    · cases h
  match cs with
  | [] => simp [exponent?] at h
  | mark :: rest =>
    rw [exponent?_cons] at h
    split at h
    all_goals
      have hle := hofDigits h
      simp only [List.length_cons] at hle ⊢
      omega

private theorem length_le_of_optionalExponent (cs : List Char) :
    ((exponent? isExponentMark cs).getD (0, 0)).2 ≤ cs.length := by
  cases hexp : exponent? isExponentMark cs with
  | none => exact Nat.zero_le _
  | some found => exact length_le_of_exponent? hexp

private theorem number?_append_lineFeed (cs more : List Char) :
    number? (cs ++ '\n' :: more) = number? cs := by
  simp only [number?, literal?_append_lineFeed]
  cases hlit : literal? cs with
  | none => rfl
  | some lit =>
    have hlength := length_le_of_literal? hlit
    have htaken := length_le_of_optionalExponent (cs.drop lit.length)
    have hnewline : isNamePart '\n' = false := by decide
    simp only [List.drop_append_of_le_length hlength, exponent?_append_lineFeed]
    generalize (exponent? isExponentMark (cs.drop lit.length)).getD (0, 0) = found at htaken ⊢
    rw [List.drop_append_of_le_length htaken]
    -- The look-ahead behind the literal meets the line feed or the end of the text.
    cases (cs.drop lit.length).drop found.2 with
    | nil => simp [hnewline]
    | cons c rest => rfl

private theorem length_le_of_number? {cs : List Char} {value : Float} {length : Nat}
    (h : number? cs = some (value, length)) : length ≤ cs.length := by
  simp only [number?] at h
  cases hlit : literal? cs with
  | none => simp [hlit] at h
  | some lit =>
    have hlit' := length_le_of_literal? hlit
    simp only [hlit] at h
    have htaken := length_le_of_optionalExponent (cs.drop lit.length)
    rw [List.length_drop] at htaken
    split at h
    · split at h
      · cases h
      · cases h
        omega
    · cases h
      omega

end Lexer

namespace Lexer

open Text.Quoted (Inside inside inside_cons_of_ne isLineEnd)

private def insideLength : Inside → Nat
  | .closed _ length => length
  | .unclosed length => length

private theorem insideLength_prepend (c : Char) (taken : Nat) (found : Inside) :
    insideLength (found.prepend c taken) = taken + insideLength found := by
  cases found <;> rfl

private theorem insideLength_le (quote : Char) (cs : List Char) :
    insideLength (inside quote cs) ≤ cs.length := by
  fun_induction inside quote cs with
  | case1 => exact Nat.le_refl 0
  | case2 more ih =>
    rw [insideLength_prepend, List.length_cons, List.length_cons]
    omega
  | case3 => exact Nat.le_add_left 1 _
  | case4 => exact Nat.le_refl 1
  | case5 => exact Nat.zero_le _
  | case6 c rest _ _ ih =>
    rw [insideLength_prepend, List.length_cons]
    omega

private theorem inside_append_lineFeed {quote : Char} (hquote : quote ≠ '\n')
    (cs more : List Char) : inside quote (cs ++ '\n' :: more) = inside quote cs := by
  have hnewline : inside quote ('\n' :: more) = .unclosed 0 :=
    inside_cons_of_ne (Ne.symm hquote) more
  fun_induction inside quote cs with
  | case1 => exact hnewline
  | case2 d ih => simp [inside, ih]
  | case3 d rest h => simp [inside, h]
  | case4 => simp [inside, Ne.symm hquote]
  | case5 c rest h hline =>
    rw [List.cons_append, inside_cons_of_ne h, if_pos hline]
  | case6 c rest h hline ih =>
    rw [List.cons_append, inside_cons_of_ne h, if_neg hline, ih]

def Head.Within (bound : Nat) : Head → Prop
  | .token _ length => length ≤ bound
  | .unclosedText length => length ≤ bound
  | .stray => True

theorem head_within (c : Char) (rest : List Char) :
    (head c rest).Within (rest.length + 1) := by
  unfold head
  split
  · next h =>
    have hle : ((rest.drop 1).takeWhile (· ≠ '\n')).length ≤ (rest.drop 1).length :=
      length_takeWhile_le _
    have hne : rest ≠ [] := by
      rintro rfl
      simp at h
    have hpos : 0 < rest.length := List.length_pos_iff.2 hne
    simp only [List.length_drop] at hle
    simp only [Head.Within]
    omega
  · split
    · have hle := insideLength_le c rest
      split
      · next h =>
        rw [h] at hle
        exact Nat.succ_le_succ hle
      · next h =>
        rw [h] at hle
        exact Nat.succ_le_succ hle
    · split
      · next h => exact length_le_of_number? h
      · split
        · exact Nat.succ_le_succ (length_takeWhile_le _)
        · split
          · exact Nat.le_add_left 1 _
          · split
            · exact Nat.le_add_left 1 _
            · split
              · exact Nat.succ_le_succ (length_takeWhile_le _)
              · trivial

/-- What stands at the start of a text is settled on its first line. -/
theorem head_append_lineFeed (c : Char) (rest more : List Char) :
    head c (rest ++ '\n' :: more) = head c rest := by
  have hpart : isNamePart '\n' = false := by decide
  have hblank : isInlineBlank '\n' = false := by decide
  have hcomment : (rest ++ '\n' :: more).head? = some '/' ↔ rest.head? = some '/' := by
    cases rest <;> simp
  have hcontent (h : rest.head? = some '/') :
      ((rest ++ '\n' :: more).drop 1).takeWhile (· ≠ '\n') =
        (rest.drop 1).takeWhile (· ≠ '\n') := by
    cases rest with
    | nil => simp at h
    | cons d rest => exact takeWhile_append_lineFeed (by simp) rest more
  have hnumber : number? (c :: (rest ++ '\n' :: more)) = number? (c :: rest) :=
    number?_append_lineFeed (c :: rest) more
  unfold head
  simp only [hcomment, hnumber, takeWhile_append_lineFeed hpart, takeWhile_append_lineFeed hblank]
  split
  · next h =>
    simp only [Bool.and_eq_true, decide_eq_true_eq] at h
    rw [hcontent h.2]
  · split
    · next h =>
      have hquote : c ≠ '\n' := by
        rintro rfl
        simp at h
      rw [inside_append_lineFeed hquote]
    · rfl

private theorem piece_skip_le (position : Nat) (c : Char) {rest : List Char} {h : Head}
    (hw : h.Within (rest.length + 1)) :
    (h.piece position (c :: rest)).2 ≤ rest.length ∨
      (h.piece position (c :: rest)).2 = rest.length + 1 ∧
        ∃ fault, (h.piece position (c :: rest)).1 = .fault fault := by
  cases h with
  | token found length =>
    simp only [Head.Within] at hw
    exact .inl (Nat.sub_le_of_le_add hw)
  | unclosedText length =>
    simp only [Head.Within] at hw
    rcases Nat.lt_or_ge rest.length length with hlt | hge
    · exact .inr ⟨Nat.le_antisymm hw hlt, _, rfl⟩
    · exact .inl hge
  | stray => exact .inl (Nat.zero_le _)

private theorem piece_append {position : Nat} {h : Head} (cs : List Char)
    (hw : h.Within cs.length) (more : List Char) :
    h.piece position (cs ++ more) = h.piece position cs := by
  cases h with
  | token found length => simp only [Head.piece, List.take_append_of_le_length hw]
  | unclosedText length => simp only [Head.piece, List.take_append_of_le_length hw]
  | stray => rfl

theorem pieces_cons (position : Nat) (c : Char) (rest : List Char) :
    pieces position 0 (c :: rest) = ((head c rest).piece position (c :: rest)).1 ::
      pieces (position + c.utf8Size) ((head c rest).piece position (c :: rest)).2 rest := rfl

private theorem pieces_of_length_le (position : Nat) {skip : Nat} {cs : List Char}
    (h : cs.length ≤ skip) : pieces position skip cs = [] := by
  induction cs generalizing position skip with
  | nil => cases skip <;> rfl
  | cons c rest ih =>
    cases skip with
    | zero => simp at h
    | succ skip => exact ih _ (Nat.le_of_succ_le_succ h)

theorem pieces_length_append (position : Nat) (cs more : List Char) :
    pieces position cs.length (cs ++ more) = pieces (position + utf8Length cs) 0 more := by
  induction cs generalizing position with
  | nil => simp
  | cons c rest ih =>
    have h := ih (position + c.utf8Size)
    simpa [pieces, Nat.add_assoc] using h

def lineFeedPiece (position : Nat) : Piece :=
  .lexeme ⟨.newline, .between position (position + 1)⟩

theorem head_lineFeed (rest : List Char) : head '\n' rest = .token .newline 1 := by
  have hnumber : number? ('\n' :: rest) = none := number?_append_lineFeed [] rest
  have hname : isNameStart '\n' = false := by decide
  have hsymbol : Symbol.ofChar? '\n' = none := by decide
  unfold head
  simp [hnumber, hname, hsymbol]

private theorem pieces_lineFeed (position : Nat) (rest : List Char) :
    pieces position 0 ('\n' :: rest) = lineFeedPiece position :: pieces (position + 1) 0 rest := by
  have hsize : '\n'.utf8Size = 1 := by decide
  simp [pieces, head_lineFeed, Head.piece, lineFeedPiece, hsize]

/-- Cutting goes on anew behind a line feed. The line feed is a piece of its own unless it ends a
string that is not closed. -/
theorem pieces_append_lineFeed (a b : List Char) (position : Nat) {skip : Nat}
    (h : skip ≤ a.length) :
    pieces position skip (a ++ '\n' :: b) =
        pieces position skip a ++ lineFeedPiece (position + utf8Length a) ::
          pieces (position + utf8Length a + 1) 0 b ∨
      (∃ fault, .fault fault ∈ pieces position skip a) ∧
        pieces position skip (a ++ '\n' :: b) =
          pieces position skip a ++ pieces (position + utf8Length a + 1) 0 b := by
  induction a generalizing position skip with
  | nil =>
    obtain rfl : skip = 0 := Nat.le_zero.1 h
    exact .inl (pieces_lineFeed position b)
  | cons c rest ih =>
    cases skip with
    | succ skip =>
      have ih := ih (position + c.utf8Size) (Nat.le_of_succ_le_succ h)
      simpa only [pieces, List.cons_append, Text.utf8Length_cons, Nat.add_assoc] using ih
    | zero =>
      have hwithin := head_within c rest
      have hsame : (head c rest).piece position (c :: (rest ++ '\n' :: b)) =
          (head c rest).piece position (c :: rest) :=
        piece_append (c :: rest) hwithin ('\n' :: b)
      rw [List.cons_append, pieces_cons, pieces_cons, head_append_lineFeed, hsame]
      rcases piece_skip_le position c hwithin with hskip | ⟨hskip, fault, hfault⟩
      · rcases ih (position + c.utf8Size) hskip with heq | ⟨⟨fault, hfault⟩, heq⟩
        · left
          simp only [heq, List.cons_append, Text.utf8Length_cons, Nat.add_assoc]
        · right
          refine ⟨⟨fault, List.mem_cons_of_mem _ hfault⟩, ?_⟩
          simp only [heq, List.cons_append, Text.utf8Length_cons, Nat.add_assoc]
      · right
        refine ⟨⟨fault, by simp [hfault]⟩, ?_⟩
        have htail : pieces (position + c.utf8Size) (rest.length + 1) (rest ++ '\n' :: b) =
            pieces (position + c.utf8Size + utf8Length (rest ++ ['\n'])) 0 b := by
          have h := pieces_length_append (position + c.utf8Size) (rest ++ ['\n']) b
          simpa using h
        have hsize : '\n'.utf8Size = 1 := by decide
        rw [hskip, htail, pieces_of_length_le _ (Nat.le_succ rest.length)]
        simp only [List.cons_append, List.nil_append, Text.utf8Length_append, Text.utf8Length_cons,
          Text.utf8Length_nil, hsize, Nat.add_assoc, Nat.add_zero]

theorem faults_map_lexeme (ls : List Lexeme) :
    (ls.map Piece.lexeme).filterMap Piece.fault? = [] := by
  rw [List.filterMap_map]
  exact List.filterMap_eq_nil_iff.2 fun _ _ => rfl

theorem lexemes_map_lexeme (ls : List Lexeme) :
    (ls.map Piece.lexeme).filterMap Piece.lexeme? = ls := by
  rw [List.filterMap_map]
  exact List.filterMap_some

private theorem faults_append_lineFeed (a b : List Char) :
    (pieces 0 0 (a ++ '\n' :: b)).filterMap Piece.fault? =
      (pieces 0 0 a).filterMap Piece.fault? ++
        ((pieces 0 0 b).filterMap Piece.fault?).map (LexFault.shift (utf8Length a + 1)) := by
  have hmoved : (pieces (0 + utf8Length a + 1) 0 b).filterMap Piece.fault? =
      ((pieces 0 0 b).filterMap Piece.fault?).map (LexFault.shift (utf8Length a + 1)) := by
    rw [Nat.add_assoc, pieces_shift, faults_shift]
  rcases pieces_append_lineFeed a b 0 (Nat.zero_le a.length) with h | ⟨-, h⟩
  · rw [h, List.filterMap_append, ← hmoved]
    rfl
  · rw [h, List.filterMap_append, hmoved]

private theorem lexemes_append_lineFeed {a : List Char}
    (hclean : (pieces 0 0 a).filterMap Piece.fault? = []) (b : List Char) :
    (pieces 0 0 (a ++ '\n' :: b)).filterMap Piece.lexeme? =
      (pieces 0 0 a).filterMap Piece.lexeme? ++
        ⟨.newline, .between (utf8Length a) (utf8Length a + 1)⟩ ::
          ((pieces 0 0 b).filterMap Piece.lexeme?).map (·.shift (utf8Length a + 1)) := by
  have hmoved : (pieces (0 + utf8Length a + 1) 0 b).filterMap Piece.lexeme? =
      ((pieces 0 0 b).filterMap Piece.lexeme?).map (·.shift (utf8Length a + 1)) := by
    rw [Nat.add_assoc, pieces_shift, lexemes_shift]
  rcases pieces_append_lineFeed a b 0 (Nat.zero_le a.length) with h | ⟨⟨fault, hf⟩, -⟩
  · rw [h, List.filterMap_append, ← hmoved, Nat.zero_add]
    rfl
  · have hmem : fault ∈ (pieces 0 0 a).filterMap Piece.fault? :=
      List.mem_filterMap.2 ⟨_, hf, rfl⟩
    rw [hclean] at hmem
    cases hmem

end Lexer

open Lexer (Piece pieces faults_append_lineFeed lexemes_append_lineFeed)

theorem tokenize_eq_ok_iff {source : String} {ls : List Lexeme} :
    tokenize source = .ok ls ↔
      (pieces 0 0 source.toList).filterMap Piece.fault? = [] ∧
        (pieces 0 0 source.toList).filterMap Piece.lexeme? = ls := by
  simp only [tokenize, lexemes]
  cases (pieces 0 0 source.toList).filterMap Piece.fault? with
  | nil => simp
  | cons fault rest => simp

theorem reported_tokenize (source : String) :
    reported (tokenize source) =
      ((pieces 0 0 source.toList).filterMap Piece.fault?).map LexFault.diagnostic := by
  simp only [tokenize, lexemes]
  cases (pieces 0 0 source.toList).filterMap Piece.fault? with
  | nil => rfl
  | cons fault rest => rfl

theorem reported_tokenize_lines (a b : String) :
    reported (tokenize (a ++ "\n" ++ b)) =
      reported (tokenize a) ++
        (reported (tokenize b)).map (·.shift (utf8Length a.toList + 1)) := by
  have htext : (a ++ "\n" ++ b).toList = a.toList ++ '\n' :: b.toList := by simp
  rw [reported_tokenize, htext, faults_append_lineFeed, List.map_append, reported_tokenize a,
    reported_tokenize b, LexFault.map_diagnostic_shift]

theorem tokenize_lines_eq_ok_iff {a b : String} {ls : List Lexeme} :
    tokenize (a ++ "\n" ++ b) = .ok ls ↔
      ∃ first second, tokenize a = .ok first ∧ tokenize b = .ok second ∧
        ls = first ++ ⟨.newline, .between (utf8Length a.toList) (utf8Length a.toList + 1)⟩ ::
          second.map (·.shift (utf8Length a.toList + 1)) := by
  have htext : (a ++ "\n" ++ b).toList = a.toList ++ '\n' :: b.toList := by simp
  simp only [tokenize_eq_ok_iff, htext, faults_append_lineFeed, List.append_eq_nil_iff,
    List.map_eq_nil_iff]
  constructor
  · rintro ⟨⟨ha, hb⟩, hls⟩
    exact ⟨_, _, ⟨ha, rfl⟩, ⟨hb, rfl⟩, hls ▸ lexemes_append_lineFeed ha b.toList⟩
  · rintro ⟨_, _, ⟨ha, rfl⟩, ⟨hb, rfl⟩, rfl⟩
    exact ⟨⟨ha, hb⟩, lexemes_append_lineFeed ha b.toList⟩

end DiagramScope.Script
