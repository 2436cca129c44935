import DiagramScope.Proofs.Script.Spans

/-!
How tokens and faults cover a source. Main statement: the tokens of a source stand one right behind
the other from its start to its end, each is also the token of its own text, and where there are no
tokens, the faults stand apart from each other.
-/

set_option autoImplicit false
set_option relaxedAutoImplicit false

namespace DiagramScope.Script

open Text (utf8Length)
open Grammar (Hull)
open Lexer (Cut Piece pieces)

namespace LexFault

def span : LexFault → Span
  | unclosedText start stop => .between start stop
  | strayCharacter position => .between position (position + 1)

private theorem primarySpan?_diagnostic (f : LexFault) :
    f.diagnostic.primarySpan? = some f.span := by
  cases f <;> rfl

/-- Whether a fault is found at the start of a text that stands at a byte position. -/
inductive FoundAt (position : Nat) : List Char → LexFault → Prop where
  | unclosedText {text : List Char} (behind : List Char) (h : text ≠ []) :
    FoundAt position (text ++ behind) (.unclosedText position (position + utf8Length text))
  | strayCharacter (c : Char) (rest : List Char) :
    FoundAt position (c :: rest) (.strayCharacter position)

variable {position : Nat} {cs : List Char} {f : LexFault}

private theorem FoundAt.start_eq (h : f.FoundAt position cs) : f.span.start = position := by
  cases h <;> rfl

private theorem FoundAt.start_lt_stop (h : f.FoundAt position cs) : f.span.start < f.span.stop := by
  cases h with
  | @unclosedText text behind htext =>
    have hpos := List.length_pos_iff.2 htext
    have hlength := Text.length_le_utf8Length text
    simp only [span, Span.between]
    omega
  | strayCharacter c rest => simp [span, Span.between]

end LexFault

namespace Lexer

variable {position skip : Nat} {cs : List Char} {f : LexFault}

private theorem length_pos_of_unclosedText {c : Char} {rest : List Char} {length : Nat}
    (h : head c rest = .unclosedText length) : 0 < length := by
  simp only [head] at h
  repeat' split at h
  all_goals cases h
  exact Nat.succ_pos _

theorem exists_foundAt (h : f ∈ (pieces position skip cs).filterMap Piece.fault?) :
    ∃ front behind, cs = front ++ behind ∧ skip ≤ front.length ∧
      f.FoundAt (position + utf8Length front) behind := by
  induction cs generalizing position skip with
  | nil => cases skip <;> cases h
  | cons c rest ih =>
    have hlater {skip' : Nat}
        (h : f ∈ (pieces (position + c.utf8Size) skip' rest).filterMap Piece.fault?) :
        ∃ front behind, c :: rest = c :: front ++ behind ∧ skip' ≤ front.length ∧
          f.FoundAt (position + utf8Length (c :: front)) behind := by
      obtain ⟨front, behind, hrest, hskip, hfound⟩ := ih h
      rw [Nat.add_assoc, ← Text.utf8Length_cons] at hfound
      exact ⟨front, behind, congrArg (c :: ·) hrest, hskip, hfound⟩
    cases skip with
    | succ skip =>
      obtain ⟨front, behind, hrest, hskip, hfound⟩ := hlater h
      exact ⟨c :: front, behind, hrest, Nat.succ_le_succ hskip, hfound⟩
    | zero =>
      obtain ⟨piece, hmem, hpiece⟩ := List.mem_filterMap.1 h
      rcases List.mem_cons.1 hmem with rfl | hmem
      · refine ⟨[], c :: rest, rfl, Nat.le_refl 0, ?_⟩
        cases hhead : head c rest with
        | token found length => rw [hhead] at hpiece; cases hpiece
        | stray =>
          rw [hhead] at hpiece
          cases hpiece
          exact .strayCharacter c rest
        | unclosedText length =>
          rw [hhead] at hpiece
          cases hpiece
          have htaken : (c :: rest).take length ≠ [] := by
            rw [Ne, List.take_eq_nil_iff, not_or]
            exact ⟨(length_pos_of_unclosedText hhead).ne', nofun⟩
          have hfound : LexFault.FoundAt position _ _ :=
            .unclosedText ((c :: rest).drop length) htaken
          rwa [List.take_append_drop] at hfound
      · obtain ⟨front, behind, hrest, -, hfound⟩ :=
          hlater (List.mem_filterMap.2 ⟨piece, hmem, hpiece⟩)
        exact ⟨c :: front, behind, hrest, Nat.zero_le _, hfound⟩

/-- A fault ends in front of the next one, whose characters it does not take. -/
theorem stop_le_of_piece {c : Char} {rest : List Char} {g : LexFault}
    (hf : ((head c rest).piece position (c :: rest)).1 = .fault f)
    (hg : g ∈ (pieces (position + c.utf8Size) ((head c rest).piece position (c :: rest)).2
      rest).filterMap Piece.fault?) : f.span.stop ≤ g.span.start := by
  obtain ⟨front, behind, rfl, hskip, hfound⟩ := exists_foundAt hg
  rw [hfound.start_eq]
  cases hhead : head c (front ++ behind) with
  | token found length => rw [hhead] at hf; cases hf
  | stray =>
    rw [hhead] at hf
    cases hf
    have hc := c.utf8Size_pos
    simp only [LexFault.span, Span.between]
    omega
  | unclosedText length =>
    rw [hhead] at hf hskip
    cases hf
    have htaken : utf8Length ((c :: (front ++ behind)).take length) ≤ utf8Length (c :: front) := by
      have hle : length ≤ (c :: front).length := Nat.le_succ_of_le hskip
      rw [← List.cons_append, List.take_append_of_le_length hle]
      conv_rhs => rw [← List.take_append_drop length (c :: front), Text.utf8Length_append]
      exact Nat.le_add_right _ _
    rw [Text.utf8Length_cons] at htaken
    simp only [LexFault.span, Span.between]
    omega

private theorem pairwise_faults (position skip : Nat) (cs : List Char) :
    ((pieces position skip cs).filterMap Piece.fault?).Pairwise
      fun f g => f.span.stop ≤ g.span.start := by
  induction cs generalizing position skip with
  | nil => cases skip <;> exact .nil
  | cons c rest ih =>
    cases skip with
    | succ skip => exact ih _ _
    | zero =>
      have hrest := ih (position + c.utf8Size) ((head c rest).piece position (c :: rest)).2
      cases hpiece : ((head c rest).piece position (c :: rest)).1 with
      | lexeme l =>
        rw [pieces_cons, hpiece]
        exact hrest
      | fault f =>
        rw [pieces_cons, hpiece]
        exact .cons (fun g hg => stop_le_of_piece hpiece hg) hrest

end Lexer

private theorem tokenize_eq_error_iff {source : String} {ds : Diagnostics} :
    tokenize source = .error ds ↔ ∃ faults, faults ≠ [] ∧
      faults = (pieces 0 0 source.toList).filterMap Piece.fault? ∧
        ds = ⟨faults.map LexFault.diagnostic⟩ := by
  simp only [tokenize, lexemes]
  cases (pieces 0 0 source.toList).filterMap Piece.fault? with
  | nil => simp
  | cons fault rest => simp [eq_comm]

/-- Whether lexemes stand one right behind the other, none of them empty, between two offsets. -/
def Tiles (stop : Nat) : (start : Nat) → List Lexeme → Prop
  | start, [] => start = stop
  | start, l :: ls => l.span.start = start ∧ start < l.span.stop ∧ Tiles stop l.span.stop ls

private theorem Lexer.Cut.tiles {rest cs : List Char} {position : Nat} {ls : List Lexeme}
    (h : Cut rest position cs ls) : Tiles (position + utf8Length cs) position ls := by
  induction h with
  | nil position => rfl
  | @cons position c more cs found ls hhead hmore ih =>
    have hpos : 0 < utf8Length (c :: more) := Nat.lt_add_right _ c.utf8Size_pos
    have hstop : max position (position + utf8Length (c :: more)) =
        position + utf8Length (c :: more) := Nat.max_eq_right (Nat.le_add_right _ _)
    refine ⟨rfl, ?_, ?_⟩
    · simp only [Span.between, hstop]
      omega
    · simp only [Span.between, hstop]
      rwa [Text.utf8Length_append, ← Nat.add_assoc]

/-- The text of a token, read on its own, is that token. -/
theorem exists_alone {source : String} {ls : List Lexeme} {l : Lexeme}
    (h : tokenize source = .ok ls) (hl : l ∈ ls) :
    ∃ before text behind alone, Slice source l.span before text behind ∧
      tokenize text = .ok [alone] ∧ alone.shift l.span.start = l := by
  obtain ⟨front, rest, rfl⟩ := List.append_of_mem hl
  have hsplit : tokenize source = .ok (front ++ [l] ++ rest) := by
    rw [h, List.append_assoc]
    rfl
  obtain ⟨before, text, behind, ms, hslice, htext, hms⟩ :=
    exists_slice hsplit (s := l.span) ⟨⟨l, [], rfl, rfl⟩, ⟨[], l, rfl, rfl⟩⟩
  obtain ⟨alone, rfl, halone⟩ := List.map_eq_singleton_iff.1 hms.symm
  exact ⟨before, text, behind, alone, hslice, htext, halone⟩

/-- Every source has tokens or faults. Its tokens stand one right behind the other from its start to
its end; none is empty, and the text of each, which lies between characters of the source, has just
this token on its own. Faults start one behind the other and do not overlap. -/
theorem tokens_tile_sources (source : String) :
    (∃ ls, tokenize source = .ok ls ∧ Tiles source.utf8ByteSize 0 ls ∧
      ∀ l ∈ ls, ∃ before text behind alone, Slice source l.span before text behind ∧
        tokenize text = .ok [alone] ∧ alone.shift l.span.start = l) ∨
    ∃ ds spans, tokenize source = .error ds ∧ spans ≠ [] ∧
      ds.all.map Diagnostic.primarySpan? = spans.map some ∧
        spans.Pairwise fun s t => s.start < t.start ∧ s.stop ≤ t.start := by
  cases h : tokenize source with
  | ok ls =>
    have htiles := (tokenize_eq_ok_iff_cut.1 h).tiles
    rw [Nat.zero_add, Text.utf8Length_toList] at htiles
    exact .inl ⟨ls, rfl, htiles, fun l hl => exists_alone h hl⟩
  | error ds =>
    obtain ⟨faults, hne, hfaults, rfl⟩ := tokenize_eq_error_iff.1 h
    refine .inr ⟨_, faults.map LexFault.span, rfl, by simpa using hne, ?_, ?_⟩
    · simp [LexFault.primarySpan?_diagnostic]
    · rw [List.pairwise_map, hfaults]
      refine (Lexer.pairwise_faults 0 0 source.toList).imp_of_mem fun hf _ hle => ⟨?_, hle⟩
      obtain ⟨front, behind, -, -, hfound⟩ := Lexer.exists_foundAt hf
      exact Nat.lt_of_lt_of_le hfound.start_lt_stop hle

end DiagramScope.Script
