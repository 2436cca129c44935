import DiagramScope.Proofs.Script.Parser.Lines
import DiagramScope.Proofs.Script.Token.Lines

/-!
Scripts are read line by line. Main statement: two texts joined by a line feed have the tokens and
the statements of the first and then, moved behind it, those of the second, and they are faulty
exactly if one of them is.
-/

set_option autoImplicit false
set_option relaxedAutoImplicit false

namespace DiagramScope.Script

open Text (utf8Length)

def significant (ls : List Lexeme) : List Lexeme := ls.filter fun l => !l.token.isTrivia

theorem parseLexemes_eq_ok_iff {ls : List Lexeme} {length : Nat} {program : List Statement} :
    parseLexemes ls length = .ok program ↔ ∃ c, Parser.program ⟨ls, 0⟩ = .done program c := by
  unfold parseLexemes Parser.program
  cases Parser.statements (ls.length + 1) ⟨ls, 0⟩ <;> simp

theorem parseLexemes_eq_error_iff {ls : List Lexeme} {length : Nat} {fault : SyntaxFault} :
    parseLexemes ls length = .error fault ↔ ∃ cause c,
      (Parser.program ⟨ls, 0⟩).commit = .halted cause c ∧ fault = .ofCause cause c ls length := by
  unfold parseLexemes Parser.program
  cases Parser.statements (ls.length + 1) ⟨ls, 0⟩ with
  | done program c => simp [Outcome.commit]
  | refused cause c | halted cause c =>
    constructor
    · intro h
      cases h
      exact ⟨cause, c, rfl, rfl⟩
    · rintro ⟨_, _, h, rfl⟩
      cases h
      rfl

theorem parse_eq_ok_iff {source : String} {program : List Statement} :
    parse source = .ok program ↔
      ∃ ls c, tokenize source = .ok ls ∧ Parser.program ⟨significant ls, 0⟩ = .done program c := by
  unfold parse
  cases tokenize source with
  | error problems => simp
  | ok ls =>
    simp only [Except.ok.injEq, exists_and_left, exists_eq_left']
    rw [← parseLexemes_eq_ok_iff]
    unfold significant
    cases parseLexemes (ls.filter fun l => !l.token.isTrivia) (utf8Length source.toList) with
    | ok program' => simp
    | error fault => simp

private theorem significant_lines (first second : List Lexeme) (bytes : Nat) (span : Span) :
    significant (first ++ ⟨.newline, span⟩ :: second.map (·.shift bytes)) =
      significant first ++ ⟨.newline, span⟩ :: (significant second).map (·.shift bytes) := by
  have hnewline : (⟨.newline, span⟩ : Lexeme).token.isTrivia = false := rfl
  simp only [significant, List.filter_append, List.filter_cons, hnewline, Bool.not_false, if_true,
    List.filter_map]
  rfl

private theorem program_lines (first second : List Lexeme) (bytes : Nat) (span : Span) :
    Parser.program ⟨first ++ ⟨.newline, span⟩ :: second.map (·.shift bytes), 0⟩ =
      Parser.andThen 0 (⟨.newline, span⟩ :: second.map (·.shift bytes))
        (Parser.program ⟨first, 0⟩) := by
  have hsep : Parser.Separated (⟨.newline, span⟩ :: second.map (·.shift bytes)) := by
    rintro l rest hl
    obtain ⟨rfl, -⟩ := List.cons.inj hl
    rfl
  have hsame : first.map (·.shift 0) = first := List.map_id' first
  have h := Parser.program_moved 0 hsep ⟨first, 0⟩
  simpa only [Cursor.moved, hsame] using h

private theorem level_of_program {ts : List Lexeme} {statements : List Statement} {c : Cursor}
    (h : Parser.program ⟨ts, 0⟩ = .done statements c) : c.level = 0 := by
  have ho := Parser.orderly_statements (ts.length + 1) ⟨ts, 0⟩
  change (Parser.program ⟨ts, 0⟩).Orderly _ at ho
  rw [h] at ho
  exact ho.level not_false

private theorem program_lines_eq_done_iff {first second : List Lexeme} {bytes : Nat} {span : Span}
    {statements : List Statement} :
    (∃ c, Parser.program ⟨first ++ ⟨.newline, span⟩ :: second.map (·.shift bytes), 0⟩ =
        .done statements c) ↔
      ∃ before after, (∃ c, Parser.program ⟨first, 0⟩ = .done before c) ∧
        (∃ c, Parser.program ⟨second, 0⟩ = .done after c) ∧
          statements = before ++ after.map (Statement.shift bytes) := by
  have hbehind : Parser.program ⟨⟨.newline, span⟩ :: second.map (·.shift bytes), 0⟩ =
      Parser.andThen bytes [] (Parser.program ⟨second, 0⟩) := by
    have hsep : Parser.Separated [] := by rintro l rest ⟨⟩
    rw [← Parser.program_moved bytes hsep]
    refine Parser.program_eq_of_behindSeparators ?_
    simp [Parser.behindSeparators, Token.isSeparator]
  rw [program_lines]
  cases hfirst : Parser.program ⟨first, 0⟩ with
  | refused cause c => simp [Parser.andThen]
  | halted cause c => simp [Parser.andThen]
  | done before c =>
    obtain ⟨rest, level⟩ := c
    obtain rfl : level = 0 := level_of_program hfirst
    simp only [Parser.andThen, hbehind]
    cases hsecond : Parser.program ⟨second, 0⟩ with
    | refused cause c' => simp [Outcome.map, Outcome.bind]
    | halted cause c' => simp [Outcome.map, Outcome.bind]
    | done after c' =>
      have hend : Parser.program { c' with rest := [] } = .done [] { c' with rest := [] } := rfl
      have hzero : before.map (Statement.shift 0) = before :=
        (List.map_congr_left fun s _ => s.shift_zero).trans (List.map_id' before)
      simp only [hend, Outcome.map, Outcome.bind, hzero, List.append_nil]
      constructor
      · rintro ⟨_, h⟩
        cases h
        exact ⟨before, after, ⟨_, rfl⟩, ⟨_, rfl⟩, rfl⟩
      · rintro ⟨_, _, ⟨_, h₁⟩, ⟨_, h₂⟩, rfl⟩
        cases h₁
        cases h₂
        exact ⟨_, rfl⟩

/-- The statements of two lines are those of the first and then, moved, those of the second. -/
theorem parse_lines_eq_ok_iff {a b : String} {program : List Statement} :
    parse (a ++ "\n" ++ b) = .ok program ↔
      ∃ first second, parse a = .ok first ∧ parse b = .ok second ∧
        program = first ++ second.map (Statement.shift (utf8Length a.toList + 1)) := by
  simp only [parse_eq_ok_iff]
  constructor
  · rintro ⟨ls, c, hls, hprogram⟩
    obtain ⟨first, second, hfirst, hsecond, rfl⟩ := tokenize_lines_eq_ok_iff.1 hls
    rw [significant_lines] at hprogram
    obtain ⟨before, after, ⟨c₁, hbefore⟩, ⟨c₂, hafter⟩, rfl⟩ :=
      program_lines_eq_done_iff.1 ⟨c, hprogram⟩
    exact ⟨before, after, ⟨first, c₁, hfirst, hbefore⟩, ⟨second, c₂, hsecond, hafter⟩, rfl⟩
  · rintro ⟨before, after, ⟨first, c₁, hfirst, hbefore⟩, ⟨second, c₂, hsecond, hafter⟩, rfl⟩
    obtain ⟨c, hc⟩ := program_lines_eq_done_iff.2 ⟨before, after, ⟨c₁, hbefore⟩, ⟨c₂, hafter⟩, rfl⟩
    refine ⟨_, c, tokenize_lines_eq_ok_iff.2 ⟨first, second, hfirst, hsecond, rfl⟩, ?_⟩
    rw [significant_lines]
    exact hc

/-- Reading is local to lines: the tokens of two texts joined by a line feed are those of the first,
the line feed and those of the second, the problems are those of the first and those of the second,
and the statements are those of the first and those of the second. What comes from the second text
is moved behind the line feed. -/
theorem scripts_read_line_by_line (a b : String) :
    (∀ ls, tokenize (a ++ "\n" ++ b) = .ok ls ↔
        ∃ first second, tokenize a = .ok first ∧ tokenize b = .ok second ∧
          ls = first ++ ⟨.newline, .between a.utf8ByteSize (a.utf8ByteSize + 1)⟩ ::
            second.map (·.shift (a.utf8ByteSize + 1))) ∧
      reported (tokenize (a ++ "\n" ++ b)) =
        reported (tokenize a) ++ (reported (tokenize b)).map (·.shift (a.utf8ByteSize + 1)) ∧
      ∀ program, parse (a ++ "\n" ++ b) = .ok program ↔
        ∃ first second, parse a = .ok first ∧ parse b = .ok second ∧
          program = first ++ second.map (Statement.shift (a.utf8ByteSize + 1)) := by
  rw [← Text.utf8Length_toList]
  exact ⟨fun _ => tokenize_lines_eq_ok_iff, reported_tokenize_lines a b,
    fun _ => parse_lines_eq_ok_iff⟩

end DiagramScope.Script
