import DiagramScope.Proofs.Script.Token.Reading

/-!
Cutting a text apart between two tokens. Main statements: a token that is read in front of a text is
also read in front of any other that starts with the same character, and in front of nothing; so a
source without faults is cut into its tokens piece by piece, and a run of them is cut from the text
that it stands for alone.
-/

set_option autoImplicit false
set_option relaxedAutoImplicit false

namespace DiagramScope.Script

open Text (utf8Length)
open Text.Quoted (inside Inside inside_cons_of_ne isLineEnd)

namespace Lexer

open Decimal (Literal literal? exponent? spanDigits)

def StartsLike (rest' rest : List Char) : Prop :=
  ∀ d more, rest' = d :: more → ∃ more', rest = d :: more'

variable {cs rest rest' : List Char} {p : Char → Bool}

theorem StartsLike.nil (rest : List Char) : StartsLike [] rest := nofun

private theorem StartsLike.append (h : StartsLike rest' rest) (cs : List Char) :
    StartsLike (cs ++ rest') (cs ++ rest) := by
  cases cs with
  | nil => exact h
  | cons c cs =>
    intro d more hd
    obtain ⟨rfl, -⟩ := List.cons.inj hd
    exact ⟨cs ++ rest, rfl⟩

private theorem StartsLike.stops (h : StartsLike rest' rest) (hrest : Stops p rest) :
    Stops p rest' := by
  intro d more hd
  obtain ⟨more', hmore⟩ := h d more hd
  exact hrest d more' hmore

private theorem stops_of_length_takeWhile (h : ((cs ++ rest).takeWhile p).length = cs.length) :
    Stops p rest := by
  induction cs with
  | nil =>
    rintro c more rfl
    rw [List.nil_append, List.takeWhile_cons] at h
    cases hc : p c with
    | false => rfl
    | true => simp [hc] at h
  | cons c cs ih =>
    rw [List.cons_append, List.takeWhile_cons] at h
    cases hc : p c with
    | false => simp [hc] at h
    | true => exact ih (by simpa [hc] using h)

private theorem exists_run (h : StartsLike rest' rest)
    (hlength : ((cs ++ rest).takeWhile p).length ≤ cs.length) :
    ∃ d, cs = (cs ++ rest).takeWhile p ++ d ∧ (cs ++ rest).dropWhile p = d ++ rest ∧
      (cs ++ rest').takeWhile p = (cs ++ rest).takeWhile p ∧
        (cs ++ rest').dropWhile p = d ++ rest' := by
  induction cs with
  | nil =>
    have hstops : Stops p rest := stops_of_length_takeWhile (Nat.le_zero.1 hlength)
    have hstops' := h.stops hstops
    exact ⟨[], by simp [hstops.takeWhile, hstops.dropWhile, hstops'.takeWhile, hstops'.dropWhile]⟩
  | cons c cs ih =>
    simp only [List.cons_append, List.takeWhile_cons, List.dropWhile_cons] at hlength ⊢
    cases hc : p c with
    | false => exact ⟨c :: cs, by simp⟩
    | true =>
      simp only [hc, if_true, List.length_cons, Nat.add_le_add_iff_right] at hlength
      obtain ⟨d, hcs, hdrop, htake', hdrop'⟩ := ih hlength
      exact ⟨d, by simpa using hcs, by simpa using hdrop, by simpa using htake',
        by simpa using hdrop'⟩

private theorem literal?_of_not_point (h : Stops (· = '.') (spanDigits cs).2) :
    literal? cs =
      if (spanDigits cs).1.isEmpty then none
      else some ⟨(spanDigits cs).1, [], (spanDigits cs).1.length⟩ := by
  simp only [literal?]
  split
  · next more hmore => cases h _ _ hmore
  · rfl

private theorem literal?_of_point {more : List Char} (h : (spanDigits cs).2 = '.' :: more) :
    literal? cs =
      if (spanDigits cs).1.isEmpty && (spanDigits more).1.isEmpty then none
      else some ⟨(spanDigits cs).1, (spanDigits more).1,
        (spanDigits cs).1.length + 1 + (spanDigits more).1.length⟩ := by
  simp only [literal?, h]

private theorem stops_or_point (cs : List Char) :
    Stops (· = '.') cs ∨ ∃ more, cs = '.' :: more := by
  cases cs with
  | nil => exact Or.inl nofun
  | cons c more =>
    by_cases hc : c = '.'
    · exact Or.inr ⟨more, by rw [hc]⟩
    · exact Or.inl (.cons (decide_eq_false hc) more)

private theorem length_spanDigits_le {lit : Literal} (h : literal? cs = some lit) :
    (spanDigits cs).1.length ≤ lit.length ∧ ∀ more, (spanDigits cs).2 = '.' :: more →
      (spanDigits cs).1.length + 1 + (spanDigits more).1.length = lit.length := by
  rcases stops_or_point (spanDigits cs).2 with hpoint | ⟨more, hmore⟩
  · rw [literal?_of_not_point hpoint] at h
    split at h
    · cases h
    · cases h
      exact ⟨Nat.le_refl _, fun more hmore => by cases hpoint _ _ hmore⟩
  · rw [literal?_of_point hmore] at h
    split at h
    · cases h
    · cases h
      refine ⟨by simp only; omega, fun more' hmore' => ?_⟩
      obtain ⟨-, rfl⟩ := List.cons.inj (hmore.symm.trans hmore')
      rfl

private theorem exists_spanDigits (h : StartsLike rest' rest)
    (hlength : (spanDigits (cs ++ rest)).1.length ≤ cs.length) :
    ∃ d, cs = (spanDigits (cs ++ rest)).1 ++ d ∧ (spanDigits (cs ++ rest)).2 = d ++ rest ∧
      (spanDigits (cs ++ rest')).1 = (spanDigits (cs ++ rest)).1 ∧
        (spanDigits (cs ++ rest')).2 = d ++ rest' :=
  exists_run h hlength

private theorem literal?_startsLike (hrest : StartsLike rest' rest) {lit : Literal}
    (h : literal? (cs ++ rest) = some lit) (hlength : lit.length ≤ cs.length) :
    literal? (cs ++ rest') = some lit := by
  obtain ⟨hwhole, hfraction⟩ := length_spanDigits_le h
  obtain ⟨d, hcs, hbehind, hwhole', hbehind'⟩ :=
    exists_spanDigits hrest (Nat.le_trans hwhole hlength)
  have hlengths := congrArg List.length hcs
  rw [List.length_append] at hlengths
  rcases stops_or_point (d ++ rest) with hpoint | ⟨more, hmore⟩
  · have hpoint' := (hrest.append d).stops hpoint
    rw [← hbehind] at hpoint
    rw [← hbehind'] at hpoint'
    rw [literal?_of_not_point hpoint', hwhole', ← literal?_of_not_point hpoint, h]
  · have hsum := hfraction more (hbehind.trans hmore)
    cases d with
    | nil =>
      rw [List.length_nil] at hlengths
      omega
    | cons x d =>
      rw [List.cons_append] at hmore hbehind hbehind'
      obtain ⟨rfl, rfl⟩ := List.cons.inj hmore
      rw [List.length_cons] at hlengths
      have hle : (spanDigits (d ++ rest)).1.length ≤ d.length := by omega
      obtain ⟨-, -, -, hdigits, -⟩ := exists_spanDigits hrest hle
      rw [literal?_of_point hbehind', hwhole', hdigits, ← literal?_of_point hbehind, h]

private theorem ofDigits_eq_some {mark : Char} {negative : Bool} {skipped taken : Nat} {e : Int}
    (h : exponent?.ofDigits isExponentMark mark negative cs skipped = some (e, taken)) :
    (spanDigits cs).1 ≠ [] ∧ skipped + (spanDigits cs).1.length = taken := by
  simp only [exponent?.ofDigits] at h
  split at h
  · next hdigits =>
    simp only [Bool.and_eq_true, Bool.not_eq_true', List.isEmpty_eq_false_iff] at hdigits
    cases h
    exact ⟨hdigits.2, rfl⟩
  · cases h

private theorem ofDigits_startsLike (hrest : StartsLike rest' rest) {mark : Char} {negative : Bool}
    {skipped taken : Nat} {e : Int}
    (h : exponent?.ofDigits isExponentMark mark negative (cs ++ rest) skipped = some (e, taken))
    (hlength : taken ≤ skipped + cs.length) :
    exponent?.ofDigits isExponentMark mark negative (cs ++ rest') skipped = some (e, taken) := by
  obtain ⟨-, htaken⟩ := ofDigits_eq_some h
  have hle : (spanDigits (cs ++ rest)).1.length ≤ cs.length := by omega
  obtain ⟨-, -, -, hdigits, -⟩ := exists_spanDigits hrest hle
  simp only [exponent?.ofDigits, hdigits] at h ⊢
  exact h

private theorem two_le_of_exponent? {e : Int} {taken : Nat}
    (h : exponent? isExponentMark cs = some (e, taken)) : 2 ≤ taken := by
  cases cs with
  | nil => cases h
  | cons mark more =>
    rw [exponent?_cons] at h
    split at h
    all_goals
      obtain ⟨hdigits, htaken⟩ := ofDigits_eq_some h
      have hpositive := List.length_pos_iff.2 hdigits
      omega

private theorem exponent?_startsLike (hrest : StartsLike rest' rest) {e : Int} {taken : Nat}
    (h : exponent? isExponentMark (cs ++ rest) = some (e, taken)) (hlength : taken ≤ cs.length) :
    exponent? isExponentMark (cs ++ rest') = some (e, taken) := by
  have htwo := two_le_of_exponent? h
  match cs with
  | [] => exact absurd hlength (by simp; omega)
  | [mark] => exact absurd hlength (by simp; omega)
  | mark :: sign :: cs =>
    simp only [List.length_cons] at hlength
    simp only [List.cons_append, exponent?_cons] at h ⊢
    by_cases hplus : sign = '+'
    · subst hplus
      exact ofDigits_startsLike hrest h (by omega)
    · by_cases hminus : sign = '-'
      · subst hminus
        exact ofDigits_startsLike hrest h (by omega)
      · have hplain (more : List Char) : exponent? isExponentMark (mark :: sign :: more) =
            exponent?.ofDigits isExponentMark mark false (sign :: more) 1 := by
          simp [exponent?_cons, hplus, hminus]
        rw [← exponent?_cons, hplain] at h
        rw [← exponent?_cons, hplain]
        rw [← List.cons_append] at h ⊢
        exact ofDigits_startsLike hrest h (by rw [List.length_cons]; omega)

/-- A text that cannot go on with a name has no exponent at its start. -/
theorem exponent?_of_stops (h : Stops isNamePart rest) : exponent? isExponentMark rest = none := by
  cases rest with
  | nil => rfl
  | cons c more =>
    refine exponent?_of_not_mark (Bool.eq_false_iff.2 fun hmark => ?_) more
    have hpart := h c more rfl
    simp only [isExponentMark, Bool.or_eq_true, decide_eq_true_eq] at hmark
    rcases hmark with ((rfl | rfl) | rfl) | rfl <;> cases hpart

private theorem number?_eq (cs : List Char) (lit : Literal) (hlit : literal? cs = some lit)
    (exponent : Int) (taken : Nat)
    (hexponent : (exponent? isExponentMark (cs.drop lit.length)).getD (0, 0) = (exponent, taken))
    {rest : List Char} (hrest : (cs.drop lit.length).drop taken = rest) :
    (Stops isNamePart rest → number? cs =
        some (Decimal.ofParts lit.whole lit.fraction exponent, lit.length + taken)) ∧
      (¬ Stops isNamePart rest → number? cs = none) := by
  unfold number?
  simp only [hlit, hexponent, hrest]
  cases rest with
  | nil => exact ⟨fun _ => rfl, fun h => absurd nofun h⟩
  | cons c more =>
    cases hc : isNamePart c with
    | true => exact ⟨fun h => absurd (hc.symm.trans (h c more rfl)) nofun, fun _ => by simp [hc]⟩
    | false => exact ⟨fun _ => by simp [hc], fun h => absurd (.cons hc more) h⟩

private theorem number?_startsLike (hrest : StartsLike rest' rest) {value : Float}
    (h : number? (cs ++ rest) = some (value, cs.length)) :
    number? (cs ++ rest') = some (value, cs.length) := by
  cases hlit : literal? (cs ++ rest) with
  | none => simp [number?, hlit] at h
  | some lit =>
    obtain ⟨⟨exponent, taken⟩, hexponent⟩ :
        ∃ found, (exponent? isExponentMark ((cs ++ rest).drop lit.length)).getD (0, 0) = found :=
      ⟨_, rfl⟩
    obtain ⟨hstop, hgo⟩ := number?_eq (cs ++ rest) lit hlit exponent taken hexponent rfl
    have hstops : Stops isNamePart (((cs ++ rest).drop lit.length).drop taken) := by
      by_contra hpart
      cases (hgo hpart).symm.trans h
    have hread := Option.some.inj ((hstop hstops).symm.trans h)
    obtain ⟨-, hlength⟩ := Prod.mk.inj hread
    have hbehind (more : List Char) : (cs ++ more).drop lit.length = cs.drop lit.length ++ more :=
      List.drop_append_of_le_length (by omega)
    have htaken : (cs.drop lit.length).length = taken := by
      rw [List.length_drop]
      omega
    have hend (more : List Char) : ((cs ++ more).drop lit.length).drop taken = more := by
      rw [hbehind, ← htaken, List.drop_left]
    rw [hend] at hstops
    have hstops' := hrest.stops hstops
    have hexponent' : (exponent? isExponentMark ((cs ++ rest').drop lit.length)).getD (0, 0) =
        (exponent, taken) := by
      rw [hbehind] at hexponent ⊢
      cases hfound : exponent? isExponentMark (cs.drop lit.length ++ rest) with
      | some found =>
        rw [hfound] at hexponent
        obtain rfl : found = (exponent, taken) := hexponent
        rw [exponent?_startsLike hrest hfound (Nat.le_of_eq htaken.symm)]
        rfl
      | none =>
        rw [hfound] at hexponent
        obtain ⟨rfl, rfl⟩ := Prod.mk.inj hexponent
        rw [List.length_eq_zero_iff.1 htaken, List.nil_append, exponent?_of_stops hstops']
        rfl
    have hlit' := literal?_startsLike hrest hlit (by omega)
    have hnumber := number?_eq (cs ++ rest') lit hlit' exponent taken hexponent' (hend rest')
    rw [hnumber.1 hstops', hread]

private theorem length_pos_of_inside {quote : Char} {content : List Char} {length : Nat}
    (h : inside quote cs = .closed content length) : 0 < length := by
  fun_induction inside quote cs generalizing content length with
  | case1 => cases h
  | case2 more ih =>
    obtain ⟨_, length', -, -, rfl⟩ := closed_of_prepend h
    omega
  | case3 => cases h; exact Nat.one_pos
  | case4 => cases h; exact Nat.one_pos
  | case5 => cases h
  | case6 c rest _ _ ih =>
    obtain ⟨_, length', -, -, rfl⟩ := closed_of_prepend h
    omega

private theorem inside_startsLike (hrest : StartsLike rest' rest) {quote : Char}
    {content : List Char} {length : Nat} (h : inside quote (cs ++ rest) = .closed content length)
    (hlength : length ≤ cs.length) : inside quote (cs ++ rest') = .closed content length := by
  fun_induction inside quote cs generalizing content length with
  | case1 => exact absurd hlength (Nat.not_le.2 (length_pos_of_inside h))
  | case2 more ih =>
    have hstep (rest : List Char) : inside quote (quote :: quote :: more ++ rest) =
        (inside quote (more ++ rest)).prepend quote 2 := by simp [inside]
    rw [hstep] at h
    obtain ⟨text, length', rfl, hmore, rfl⟩ := closed_of_prepend h
    simp only [List.length_cons] at hlength
    rw [hstep, ih hmore (by omega)]
    rfl
  | case3 d more hd =>
    have hstep (rest : List Char) : inside quote (quote :: d :: more ++ rest) = .closed [] 1 := by
      simp [inside, hd]
    rw [hstep] at h ⊢
    exact h
  | case4 =>
    -- The closing quote is the last character in front of the cut, and no quote follows it.
    have hquote : Stops (· = quote) rest := by
      rintro d more rfl
      refine decide_eq_false fun hd => ?_
      subst hd
      have hstep : inside d ([d] ++ d :: more) = (inside d more).prepend d 2 := by simp [inside]
      rw [hstep] at h
      obtain ⟨-, length', -, -, rfl⟩ := closed_of_prepend h
      rw [List.length_singleton] at hlength
      omega
    have hclosed {rest : List Char} (hrest : Stops (· = quote) rest) :
        inside quote ([quote] ++ rest) = .closed [] 1 := by
      cases rest with
      | nil => simp [inside]
      | cons d more => simp [inside, of_decide_eq_false (hrest d more rfl)]
    rw [hclosed hquote] at h
    rw [hclosed (hrest.stops hquote), h]
  | case5 c more hc hline =>
    rw [List.cons_append, inside_cons_of_ne hc, if_pos hline] at h
    cases h
  | case6 c more hc hline ih =>
    rw [List.cons_append, inside_cons_of_ne hc, if_neg hline] at h ⊢
    obtain ⟨text, length', rfl, hmore, rfl⟩ := closed_of_prepend h
    rw [List.length_cons] at hlength
    rw [ih hmore (by omega)]
    rfl

private theorem takeWhile_startsLike (hrest : StartsLike rest' rest)
    (hlength : ((cs ++ rest).takeWhile p).length ≤ cs.length) :
    (cs ++ rest').takeWhile p = (cs ++ rest).takeWhile p :=
  let ⟨_, _, _, hsame, _⟩ := exists_run hrest hlength
  hsame

/-- A token is read in front of a text if it is in front of one that starts with the same
character. -/
theorem head_startsLike (hrest : StartsLike rest' rest) {c : Char} {more : List Char}
    {found : Token} (h : head c (more ++ rest) = .token found (more.length + 1)) :
    head c (more ++ rest') = .token found (more.length + 1) := by
  rw [head_eq_token_iff] at h ⊢
  generalize hlength : more.length + 1 = length at h
  cases h with
  | comment hc hslash =>
    cases more with
    | nil =>
      rw [List.length_nil] at hlength
      omega
    | cons d more =>
      rw [List.cons_append] at hslash
      obtain ⟨rfl, rfl⟩ := List.cons.inj hslash
      rw [List.length_cons] at hlength
      have htaken : ((more ++ rest).takeWhile (· ≠ '\n')).length ≤ more.length := by omega
      rw [← takeWhile_startsLike hrest htaken]
      exact .comment hc rfl
  | text hc hinside => exact .text hc (inside_startsLike hrest hinside (by omega))
  | number hnumber =>
    subst hlength
    have hwhole : number? (c :: more ++ rest) = some (_, (c :: more).length) := hnumber
    exact .number (number?_startsLike hrest hwhole)
  | name hc =>
    rw [← takeWhile_startsLike hrest (by omega)]
    exact .name hc
  | symbol hc hslash =>
    refine .symbol hc fun hcomment hhead => hslash hcomment ?_
    obtain ⟨tail, htail⟩ := List.head?_eq_some_iff.1 hhead
    obtain ⟨tail', htail'⟩ := (hrest.append more) '/' tail htail
    rw [htail']
    rfl
  | newline hc => exact .newline hc
  | blank hc =>
    rw [← takeWhile_startsLike hrest (by omega)]
    exact .blank hc

private theorem length_pos_of_literal? {lit : Literal} (h : literal? cs = some lit) :
    0 < lit.length := by
  rcases stops_or_point (spanDigits cs).2 with hpoint | ⟨more, hmore⟩
  · rw [literal?_of_not_point hpoint] at h
    split at h
    · cases h
    · next hdigits =>
      cases h
      exact List.length_pos_iff.2 fun hnone => hdigits (List.isEmpty_iff.2 hnone)
  · rw [literal?_of_point hmore] at h
    split at h
    · cases h
    · cases h
      simp only
      omega

private theorem length_pos_of_number? {value : Float} {length : Nat}
    (h : number? cs = some (value, length)) : 0 < length := by
  cases hlit : literal? cs with
  | none => simp [number?, hlit] at h
  | some lit =>
    have hpos := length_pos_of_literal? hlit
    obtain ⟨hstop, hgo⟩ := number?_eq cs lit hlit _ _ rfl rfl
    by_cases hstops : Stops isNamePart ((cs.drop lit.length).drop
        ((exponent? isExponentMark (cs.drop lit.length)).getD (0, 0)).2)
    · have hlength := (Prod.mk.inj (Option.some.inj ((hstop hstops).symm.trans h))).2
      omega
    · cases (hgo hstops).symm.trans h

private theorem length_pos_of_head {c : Char} {found : Token} {length : Nat}
    (h : head c rest = .token found length) : 0 < length := by
  cases head_eq_token_iff.1 h with
  | number hnumber => exact length_pos_of_number? hnumber
  | _ => exact Nat.succ_pos _

private theorem stops_of_head_comment {c : Char} {more : List Char} {content : String}
    (h : head c (more ++ rest) = .token (.comment content) (more.length + 1)) :
    Stops (· ≠ '\n') rest := by
  rw [head_eq_token_iff] at h
  generalize hlength : more.length + 1 = length at h
  cases h with
  | comment _ hslash =>
    cases more with
    | nil =>
      rw [List.length_nil] at hlength
      omega
    | cons d more =>
      rw [List.cons_append] at hslash
      obtain ⟨-, rfl⟩ := List.cons.inj hslash
      rw [List.length_cons] at hlength
      have htaken : ((more ++ rest).takeWhile (· ≠ '\n')).length = more.length := by omega
      exact stops_of_length_takeWhile htaken

/-- The text `cs` in front of `rest`, which stands at a byte position, is cut into the lexemes `ls`
without a fault, and the last of them ends with it. -/
inductive Cut (rest : List Char) : Nat → List Char → List Lexeme → Prop where
  | nil (position : Nat) : Cut rest position [] []
  | cons {position : Nat} {c : Char} {more cs : List Char} {found : Token} {ls : List Lexeme}
      (hhead : head c (more ++ (cs ++ rest)) = .token found (more.length + 1))
      (hmore : Cut rest (position + utf8Length (c :: more)) cs ls) :
      Cut rest position (c :: more ++ cs)
        (⟨found, .between position (position + utf8Length (c :: more))⟩ :: ls)

namespace Cut

variable {position : Nat} {ls : List Lexeme}

private theorem pieces_eq (h : Cut rest position cs ls) : pieces position 0 (cs ++ rest) =
    ls.map .lexeme ++ pieces (position + utf8Length cs) 0 rest := by
  induction h with
  | nil position => rfl
  | @cons position c more cs found ls hhead _ ih =>
    rw [List.append_assoc, List.cons_append, pieces_of_head hhead, ih, Text.utf8Length_append,
      ← Nat.add_assoc]
    rfl

private theorem exists_of_pieces {position : Nat} {cs : List Char}
    (h : (pieces position 0 cs).filterMap Piece.fault? = []) : ∃ ls, Cut [] position cs ls := by
  induction hn : cs.length using Nat.strong_induction_on generalizing position cs with
  | h n ih =>
    cases cs with
    | nil => exact ⟨[], .nil position⟩
    | cons c rest =>
      have hwithin := head_within c rest
      cases hhead : head c rest with
      | token found length =>
        have hpos := length_pos_of_head hhead
        rw [hhead, Head.Within] at hwithin
        -- The token is its first character, `more` and nothing of `behind`.
        obtain ⟨more, behind, rfl, hmore⟩ : ∃ more behind, rest = more ++ behind ∧
            more.length + 1 = length := by
          refine ⟨rest.take (length - 1), rest.drop (length - 1),
            (List.take_append_drop _ _).symm, ?_⟩
          rw [List.length_take]
          omega
        subst hmore
        rw [pieces_of_head hhead] at h
        have hshort : behind.length < n := by
          rw [← hn, List.length_cons, List.length_append]
          omega
        obtain ⟨ls, hls⟩ := ih behind.length hshort h rfl
        rw [← List.append_nil behind] at hhead
        exact ⟨_, .cons hhead hls⟩
      | unclosedText length =>
        simp [pieces, hhead, Head.piece, Piece.fault?] at h
      | stray =>
        simp [pieces, hhead, Head.piece, Piece.fault?] at h

/-- Between two tokens a text can be cut apart. -/
theorem split {ms : List Lexeme} (h : Cut rest position cs (ls ++ ms)) :
    ∃ first second, cs = first ++ second ∧ Cut (second ++ rest) position first ls ∧
      Cut rest (position + utf8Length first) second ms := by
  induction ls generalizing position cs with
  | nil => exact ⟨[], cs, rfl, .nil position, h⟩
  | cons l ls ih =>
    cases h with
    | @cons _ c more cs found _ hhead hmore =>
      obtain ⟨first, second, rfl, hfirst, hsecond⟩ := ih hmore
      refine ⟨c :: more ++ first, second, (List.append_assoc _ _ _).symm, ?_, ?_⟩
      · rw [List.append_assoc] at hhead
        exact .cons hhead hfirst
      · rw [Text.utf8Length_append, ← Nat.add_assoc]
        exact hsecond

/-- What a text is cut into does not depend on what stands behind it, but for the character that
follows. -/
theorem startsLike (h : Cut rest position cs ls) (hrest : StartsLike rest' rest) :
    Cut rest' position cs ls := by
  induction h with
  | nil position => exact .nil position
  | cons hhead _ ih => exact .cons (head_startsLike (hrest.append _) hhead) ih

theorem exists_shift {bytes : Nat} (h : Cut rest (position + bytes) cs ls) :
    ∃ ms, ls = ms.map (·.shift bytes) ∧ Cut rest position cs ms := by
  generalize hmoved : position + bytes = moved at h
  induction h generalizing position with
  | nil _ => exact ⟨[], rfl, .nil position⟩
  | @cons moved c more cs found ls hhead _ ih =>
    subst hmoved
    obtain ⟨ms, rfl, hms⟩ := ih (Nat.add_right_comm position (utf8Length (c :: more)) bytes)
    refine ⟨_, ?_, .cons hhead hms⟩
    simp [Lexeme.shift, Span.between_shift, Nat.add_right_comm]

theorem start_eq {l : Lexeme} (h : Cut rest position cs (l :: ls)) : l.span.start = position := by
  cases h
  rfl

theorem stop_eq {l : Lexeme} (h : Cut rest position cs (ls ++ [l])) :
    l.span.stop = position + utf8Length cs := by
  obtain ⟨first, second, rfl, -, hlast⟩ := h.split
  cases hlast with
  | cons _ hmore =>
    cases hmore
    rw [List.append_nil, Text.utf8Length_append, ← Nat.add_assoc]
    exact Nat.max_eq_right (Nat.le_add_right _ _)

theorem bounds (h : Cut rest position cs ls) : ∀ l ∈ ls, position ≤ l.span.start ∧
    l.span.start < l.span.stop ∧ l.span.stop ≤ position + utf8Length cs := by
  induction h with
  | nil position => exact nofun
  | @cons position c more cs found ls hhead _ ih =>
    have hpos : 0 < utf8Length (c :: more) := by
      have hc := c.utf8Size_pos
      rw [Text.utf8Length_cons]
      omega
    rw [Text.utf8Length_append]
    intro l hl
    rcases List.mem_cons.1 hl with rfl | hl
    · simp only [Span.between]
      omega
    · obtain ⟨hstart, hne, hstop⟩ := ih l hl
      omega

theorem pairwise (h : Cut rest position cs ls) :
    ls.Pairwise fun l m => l.span.stop ≤ m.span.start := by
  induction h with
  | nil position => exact .nil
  | @cons position c more cs found ls hhead hmore ih =>
    refine .cons (fun m hm => ?_) ih
    have hstart := (hmore.bounds m hm).1
    simp only [Span.between]
    omega

theorem newline_of_comment {content : String} {span : Span} {l : Lexeme} {ms : List Lexeme}
    (h : Cut rest position cs (ls ++ ⟨.comment content, span⟩ :: l :: ms)) :
    l.token = .newline := by
  obtain ⟨first, second, rfl, -, h⟩ := h.split
  cases h with
  | @cons _ c more behind _ _ hhead hmore =>
    cases hmore with
    | @cons _ d more' behind' found _ hhead' _ =>
      have hline := stops_of_head_comment hhead d (more' ++ behind' ++ rest) rfl
      obtain rfl : d = '\n' := by simpa using hline
      rw [head_lineFeed] at hhead'
      exact (Head.token.inj hhead').1.symm

end Cut

end Lexer

open Lexer (Cut StartsLike)

theorem tokenize_eq_ok_iff_cut {source : String} {ls : List Lexeme} :
    tokenize source = .ok ls ↔ Cut [] 0 source.toList ls := by
  have hpieces {ls : List Lexeme} (h : Cut [] 0 source.toList ls) :
      Lexer.pieces 0 0 source.toList = ls.map .lexeme := by
    have heq := h.pieces_eq
    have hend : Lexer.pieces (0 + utf8Length source.toList) 0 [] = [] := rfl
    rwa [List.append_nil, hend, List.append_nil] at heq
  have hlexemes {ls : List Lexeme} (h : Cut [] 0 source.toList ls) :
      (Lexer.pieces 0 0 source.toList).filterMap Lexer.Piece.lexeme? = ls := by
    rw [hpieces h, Lexer.lexemes_map_lexeme]
  rw [tokenize_eq_ok_iff]
  constructor
  · rintro ⟨hclean, rfl⟩
    obtain ⟨ls, hls⟩ := Lexer.Cut.exists_of_pieces hclean
    rwa [hlexemes hls]
  · intro h
    refine ⟨?_, hlexemes h⟩
    rw [hpieces h, Lexer.faults_map_lexeme]

end DiagramScope.Script
