import DiagramScope.Proofs.Script.Parser.Completeness
import DiagramScope.Proofs.Script.Parser.Lookahead

/-!
Where syntax faults are found. Statements are read with one token of lookahead as well, so that a
program comes to a verdict: reading stops where the tokens cannot be continued to a program any
more. Main statement: a text is incomplete exactly if its tokens are the start of a program and do
not end in a comma; otherwise the fault is at the first token with which the tokens are no such
start, or at the comma in front of it.
-/

set_option autoImplicit false
set_option relaxedAutoImplicit false

namespace DiagramScope.Script

open Grammar (IsStatement IsProgram LongestViable Viable Whole)

namespace Parser

private theorem expression_name (name : String) (span : Span) :
    expression unary ⟨[⟨.name name, span⟩], 0⟩ = .done (.reference name span) ⟨[], 0⟩ := rfl

private theorem attempt_statement (ts : List Lexeme) :
    Attempt (fun s run => ∃ n, IsStatement s n run []) (fun ts => statement ⟨ts, 0⟩) ts := by
  have hsame {ts : List Lexeme} (hts : ¬ ∃ name nameSpan equals rest,
      ts = ⟨.name name, nameSpan⟩ :: ⟨.symbol .equals, equals⟩ :: rest) :
      statement ⟨ts, 0⟩ = (expression unary ⟨ts, 0⟩).map .expression :=
    statement_of_not_assignment hts
  have hunary : Explained (.chain .sum) (expression unary) :=
    explained_unary.expression orderly_unary
  have hexpression (e : Expr) (run : List Lexeme) (he : Whole (.chain .sum) e run) :
      ∃ n, IsStatement (.expression e) n run [] := by
    obtain ⟨n, he⟩ := he
    exact ⟨n, .expression he⟩
  have hread : Attempt (fun s run => ∃ n, IsStatement s n run [])
      (fun ts => (expression unary ⟨ts, 0⟩).map .expression) ts :=
    (hunary ts 0).map Statement.expression hexpression
  by_cases hname : ∃ name span rest, ts = ⟨.name name, span⟩ :: rest
  · obtain ⟨name, span, rest, rfl⟩ := hname
    rcases next_ne_or .equals rest with hrest | ⟨equals, rest, rfl⟩
    · have hplain (rest' : List Lexeme) (hrest' : rest'.head? = rest.head?) :
          statement ⟨⟨.name name, span⟩ :: rest', 0⟩ =
            (expression unary ⟨⟨.name name, span⟩ :: rest', 0⟩).map .expression := by
        refine hsame ?_
        rintro ⟨_, _, equals, more, heq⟩
        exact (hrest.congr hrest') _ _ (List.cons.inj heq).2 rfl
      cases hread with
      | refused expected level _ hrefused =>
        have halone := hrefused [⟨.name name, span⟩] rfl
        rw [expression_name] at halone
        cases halone
      | taken l rest hts hl h =>
        obtain ⟨rfl, rfl⟩ := List.cons.inj hts
        exact .taken _ _ rfl rfl (h.look hplain)
      | nesting c h => exact .nesting c ((hplain rest rfl).trans h)
    · have hfront : pendingComma [⟨.symbol .equals, equals⟩] = [] := pendingComma_singleton rfl
      refine .taken _ _ rfl rfl (.behind hfront (((hunary rest 0).commit.map
        (Statement.assign name span) ?_).look fun _ _ => rfl))
      rintro e run ⟨n, he⟩
      exact ⟨n, .assign name span equals he⟩
  · refine hread.look fun ts' hts' => hsame ?_
    rintro ⟨name, span, equals, rest, rfl⟩
    obtain ⟨rest', hrest'⟩ := List.head?_eq_some_iff.1 hts'.symm
    exact hname ⟨name, span, rest', hrest'⟩

def ProgramVerdict (ts : List Lexeme) : Prop :=
  Verdict (fun p run => ∃ n, IsProgram p n run) (fun ts => (program ⟨ts, 0⟩).commit) ts

private theorem verdict_continueWith {s : Statement} {m : Nat} {run : List Lexeme}
    (hs : IsStatement s m run []) (rest : List Lexeme)
    (hmore : ∀ l more, rest = l :: more → ProgramVerdict more) :
    Verdict (fun p run' => ∃ n, IsProgram p n (run ++ run'))
      (fun ts => (continueWith program s ⟨ts, 0⟩).commit) rest := by
  have hlast : IsProgram [s] m (run ++ []) := by
    rw [List.append_nil]
    exact .last hs
  cases rest with
  | nil =>
    refine .done [] [] [s] 0 rfl rfl ⟨m, hlast⟩ fun ts hts => ?_
    rw [List.head?_eq_none_iff.1 hts]
    rfl
  | cons l rest =>
    cases hl : l.token.isSeparator with
    | true =>
      have hfront : pendingComma [l] = [] :=
        pendingComma_singleton (Token.isComma_of_isSeparator hl)
      refine .behind hfront (((hmore l rest rfl).map (s :: ·) ?_).look fun ts _ => ?_)
      · rintro p more ⟨n, hp⟩
        exact ⟨_, .cons (hs.append (l :: more)) hl hp⟩
      · simp only [continueWith, List.singleton_append, hl, if_true]
        cases program ⟨ts, 0⟩ <;> rfl
    | false =>
      refine .blocked [] (l :: rest) .separator 0 rfl ⟨[], [s], m, hlast⟩ fun ts hts => ?_
      obtain ⟨rest', rfl⟩ := List.head?_eq_some_iff.1 hts
      simp only [continueWith, List.nil_append, hl, Bool.false_eq_true, if_false]
      rfl

private theorem verdict_program (ts : List Lexeme) : ProgramVerdict ts := by
  -- By induction on the number of tokens: separators and statements take some.
  induction hn : ts.length using Nat.strongRecOn generalizing ts with
  | ind n ih =>
    cases ts with
    | nil =>
      refine .done [] [] [] 0 rfl rfl ⟨0, .nil⟩ fun ts' hts => ?_
      rw [List.head?_eq_none_iff.1 hts]
      rfl
    | cons l rest =>
      rw [List.length_cons] at hn
      cases hl : l.token.isSeparator with
      | true =>
        have hskip (rest : List Lexeme) : program ⟨l :: rest, 0⟩ = program ⟨rest, 0⟩ :=
          program_eq_of_behindSeparators (by simp [behindSeparators, hl])
        have hfront : pendingComma [l] = [] :=
          pendingComma_singleton (Token.isComma_of_isSeparator hl)
        have hrest : ProgramVerdict rest := ih rest.length (by omega) rest rfl
        refine .behind hfront ((hrest.mono ?_).look fun rest' _ => congrArg _ (hskip rest'))
        rintro p run ⟨m, hp⟩
        exact ⟨m, .separator hl hp⟩
      | false =>
        have hstart (rest : List Lexeme) : program ⟨l :: rest, 0⟩ =
            (statement ⟨l :: rest, 0⟩).bind (continueWith program) :=
          program_of_behindSeparators_cons (by simp [behindSeparators, hl])
        refine Verdict.look ((attempt_statement (l :: rest)).commit.bind
          (g := fun s c => (continueWith program s c).commit) (fun _ _ => rfl) ?_ ?_) ?_
        · rintro s run ⟨m, hs⟩
          exact ⟨[], [s], m, by rw [List.append_nil]; exact .last hs⟩
        · rintro s run behind level hrun hread ⟨m, hs⟩
          obtain rfl : level = 0 :=
            orderly_statement.level_eq (Outcome.commit_eq_done_iff.1 hread)
          refine verdict_continueWith hs behind ?_
          rintro l' more rfl
          have hlength := congrArg List.length hrun
          rw [List.length_cons, List.length_append, List.length_cons] at hlength
          exact ih more.length (by omega) more rfl
        · intro ts' hts'
          obtain ⟨rest', rfl⟩ := List.head?_eq_some_iff.1 hts'
          rw [hstart]
          cases statement ⟨l :: rest', 0⟩ <;> rfl

end Parser

/-- Where a token is found missing whatever comes behind the next one, no program goes on with that
one: programs are read up to their end, or halt for their nesting. -/
theorem not_viable_of_missing {ts : List Lexeme} {l : Lexeme} {expected : Expected}
    {c : List Lexeme → Cursor} (h : ∀ more,
      (Parser.program ⟨ts ++ l :: more, 0⟩).commit = .halted (.missing expected) (c more)) :
    ¬ Viable (ts ++ [l]) := by
  rintro ⟨more, -, p, n, hprogram⟩
  rw [List.append_assoc, List.singleton_append] at hprogram
  have hmissing := h more
  have hsettles := Parser.settles_program hprogram
  by_cases hn : 0 + n ≤ maxNesting
  · rw [hsettles.done hn] at hmissing
    cases hmissing
  · obtain ⟨c', hhalted⟩ := hsettles.halted (Nat.lt_of_not_le hn)
    rw [hhalted] at hmissing
    cases hmissing

section Reported

variable {ls : List Lexeme} {length : Nat} {fault : SyntaxFault}

/-- Reading stops behind the longest start of a program, or at the comma at its end. -/
theorem exists_longestViable (h : parseLexemes ls length = .error fault)
    (hcode : fault.diagnostic.code = some .unexpectedToken ∨
      fault.diagnostic.code = some .incompleteInput) :
    ∃ viable unread expected level, LongestViable ls viable unread ∧
      fault = .ofCause (.missing expected) ⟨pendingComma viable ++ unread, level⟩ ls length := by
  cases Parser.verdict_program ls with
  | done run rest p level hls _ _ hread =>
    have hdone := Outcome.commit_eq_done_iff.1 (hread rest rfl)
    rw [← hls] at hdone
    rw [parseLexemes_eq_ok_iff.2 ⟨_, hdone⟩] at h
    cases h
  | nesting c hread =>
    rw [parseLexemes_eq_error_iff.2 ⟨_, c, hread, rfl⟩] at h
    obtain ⟨rest, level⟩ := c
    cases rest <;> cases h <;> rcases hcode with hcode | hcode <;> cases hcode
  | blocked viable unread expected level hls hcomplete hread =>
    have hhalted := hread unread rfl
    rw [← hls] at hhalted
    rw [parseLexemes_eq_error_iff.2 ⟨_, _, hhalted, rfl⟩] at h
    obtain ⟨more, p, n, hprogram⟩ := hcomplete
    refine ⟨viable, unread, expected, level, ⟨hls, ?_, ?_⟩, (Except.error.inj h).symm⟩
    · exact Grammar.viable_of_isProgram hprogram
    · rintro u more rfl
      exact not_viable_of_missing fun more' => hread (u :: more') rfl

/-- Texts that are refused for their syntax, but not for their nesting: they are incomplete exactly
if their tokens are the start of a program and do not end in a comma. Otherwise the fault is at the
first token with which the tokens are not the start of a program any more, unless a comma stands in
front of that token or at the end: then the fault is at the comma, although its tokens are one. -/
theorem syntax_faults_end_viable_prefixes (h : parseLexemes ls length = .error fault)
    (hcode : fault.diagnostic.code = some .unexpectedToken ∨
      fault.diagnostic.code = some .incompleteInput) :
    (fault.diagnostic.code = some .incompleteInput ↔ Viable ls ∧ ¬ EndsInComma ls) ∧
      (fault.diagnostic.code = some .unexpectedToken →
        ∃ before t behind expected, ls = before ++ t :: behind ∧ fault = .unexpected t expected ∧
          (Viable before ∧ ¬ EndsInComma before ∧ ¬ Viable (before ++ [t]) ∨
            EndsInComma (before ++ [t]) ∧ Viable (before ++ [t]) ∧
              ∀ u more, behind = u :: more → ¬ Viable (before ++ [t, u]))) := by
  obtain ⟨viable, unread, expected, level, hlongest, rfl⟩ := exists_longestViable h hcode
  have hall := hlongest.viable_iff
  have hsplit := hlongest.split
  rcases pendingComma_cases viable with ⟨hnone, hends⟩ | ⟨initial, t, rfl, hsome, hends⟩
  · rw [hnone, List.nil_append]
    cases unread with
    | nil =>
      have hends' : ¬ EndsInComma ls := by rwa [hsplit, List.append_nil]
      exact ⟨⟨fun _ => ⟨hall.2 rfl, hends'⟩, fun _ => rfl⟩, nofun⟩
    | cons u more =>
      refine ⟨⟨nofun, fun hviable => ?_⟩, fun _ => ?_⟩
      · exact absurd (hall.1 hviable.1) (List.cons_ne_nil u more)
      · exact ⟨viable, u, more, expected, hsplit, rfl,
          .inl ⟨hlongest.viable, hends, hlongest.stuck u more rfl⟩⟩
  · rw [hsome, List.singleton_append]
    refine ⟨⟨nofun, fun ⟨hviable, hnot⟩ => absurd ?_ hnot⟩, fun _ => ?_⟩
    · rwa [hsplit, hall.1 hviable, List.append_nil]
    · rw [List.append_assoc] at hsplit
      refine ⟨initial, t, unread, expected, hsplit, rfl,
        .inr ⟨hends, hlongest.viable, fun u more hunread => ?_⟩⟩
      have hstuck := hlongest.stuck u more hunread
      rwa [List.append_assoc] at hstuck

end Reported

def openVector (rest : List Lexeme) : List Lexeme :=
  ⟨.symbol .leftBracket, .between 0 1⟩ :: ⟨.name "x", .between 1 2⟩ :: rest

theorem syntax_faults_end_viable_prefixes_open :
    (∃ fault, parseLexemes (openVector []) 2 = .error fault ∧
      fault.diagnostic.code = some .incompleteInput) ∧ Viable (openVector []) := by
  have hfault : parseLexemes (openVector []) 2 =
      .error (.incomplete .closeBracket 2 (some ⟨.name "x", .between 1 2⟩)) := rfl
  refine ⟨⟨_, hfault, rfl⟩, ?_⟩
  exact ((syntax_faults_end_viable_prefixes hfault (.inr rfl)).1.1 rfl).1

/-- A comma at the end is not accepted, although an item can follow it. -/
theorem last_comma_is_unexpected :
    Viable (openVector [⟨.symbol .comma, .between 2 3⟩]) ∧
      parseLexemes (openVector [⟨.symbol .comma, .between 2 3⟩]) 3 =
        .error (.unexpected ⟨.symbol .comma, .between 2 3⟩ .closeBracket) := by
  have hread : Parser.program ⟨openVector [⟨.symbol .comma, .between 2 3⟩] ++
      [⟨.name "x", .between 3 4⟩, ⟨.symbol .rightBracket, .between 4 5⟩], 0⟩ =
        .done [.expression (.vector [.reference "x" (.between 1 2), .reference "x" (.between 3 4)]
          (.between 0 5))] ⟨[], 0⟩ := rfl
  obtain ⟨n, -, hprogram⟩ := isProgram_of_program hread
  exact ⟨Grammar.viable_of_isProgram hprogram, rfl⟩

end DiagramScope.Script
