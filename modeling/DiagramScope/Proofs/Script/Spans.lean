import DiagramScope.Proofs.Script.Parser.Completeness
import DiagramScope.Proofs.Script.Syntax.Standing
import DiagramScope.Proofs.Script.Token.Cutting

/-!
What spans stand for. Main statement: the text at the span of an expression, read on its own, is
that expression, its children and the statements of a program stand one behind the other, and the
spans of statements hold all tokens but separators and what stands between statements.
-/

set_option autoImplicit false
set_option relaxedAutoImplicit false

namespace DiagramScope.Script

open Text (utf8Length)
open Grammar (Hull Stands Ordered StatementRun Laid IsProgram)
open Lexer (Cut)

namespace Span

def Inside (s t : Span) : Prop := t.start ≤ s.start ∧ s.stop ≤ t.stop

def Before (s t : Span) : Prop := s.stop ≤ t.start

end Span

/-- A source is a text at a span, between what stands in front of it and behind it. -/
structure Slice (source : String) (s : Span) (front text behind : String) : Prop where
  source_eq : source = front ++ text ++ behind
  start : front.utf8ByteSize = s.start
  stop : (front ++ text).utf8ByteSize = s.stop

variable {ls : List Lexeme}

private theorem significant_append (ls ms : List Lexeme) :
    significant (ls ++ ms) = significant ls ++ significant ms := List.filter_append ls ms

private theorem significant_shift (ls : List Lexeme) (bytes : Nat) :
    significant (ls.map (·.shift bytes)) = (significant ls).map (·.shift bytes) := by
  unfold significant
  rw [List.filter_map]
  rfl

private theorem mem_significant_iff {l : Lexeme} :
    l ∈ significant ls ↔ l ∈ ls ∧ l.token.isTrivia = false := by
  unfold significant
  rw [List.mem_filter, Bool.not_eq_true']

private theorem exists_split_of_significant {before behind : List Lexeme} {l : Lexeme}
    (h : significant ls = before ++ l :: behind) :
    ∃ front rest, ls = front ++ l :: rest ∧ significant front = before ∧
      significant rest = behind := by
  obtain ⟨front, rest', rfl, hfront, hrest'⟩ := List.filter_eq_append_iff.1 h
  obtain ⟨skipped, rest, rfl, hskipped, -, hrest⟩ := List.filter_eq_cons_iff.1 hrest'
  have htrivia : significant skipped = [] := List.filter_eq_nil_iff.2 hskipped
  refine ⟨front ++ skipped, rest, (List.append_assoc _ _ _).symm, ?_, hrest⟩
  rw [significant_append, htrivia, List.append_nil]
  exact hfront

private theorem significant_singleton {l : Lexeme} (h : l ∈ significant ls) :
    significant [l] = [l] :=
  List.filter_eq_self.2 (List.forall_mem_singleton.2 (List.mem_filter.1 h).2)

private theorem exists_run_of_significant {before mid behind : List Lexeme} {s : Span}
    (h : significant ls = before ++ mid ++ behind) (hs : Hull s mid) :
    ∃ front run rest, ls = front ++ run ++ rest ∧ significant run = mid ∧ Hull s run := by
  have hkept {l : Lexeme} (hl : l ∈ mid) : significant [l] = [l] := by
    have hmem : l ∈ significant ls := by
      rw [h]
      simp [hl]
    exact significant_singleton hmem
  obtain ⟨first, more, hfirst, hstart⟩ := hs.start
  obtain ⟨initial, last, hlast, hstop⟩ := hs.stop
  have hkeptFirst := hkept (hfirst ▸ List.mem_cons_self)
  have hkeptLast := hkept (hlast ▸ List.mem_append_right _ (List.mem_singleton_self _))
  -- The tokens are cut in front of the first of the run and behind its last, so that no trivia at
  -- the ends widen its span.
  rw [hfirst, List.append_assoc, List.cons_append] at h
  obtain ⟨front, rest, rfl, -, hrest⟩ := exists_split_of_significant h
  cases initial with
  | nil =>
    obtain ⟨rfl, rfl⟩ := List.cons.inj (hfirst.symm.trans hlast)
    exact ⟨front, [first], rest, by simp, hkeptFirst.trans hfirst.symm,
      ⟨first, [], rfl, hstart⟩, ⟨[], first, rfl, hstop⟩⟩
  | cons first' initial =>
    obtain ⟨rfl, rfl⟩ := List.cons.inj (hfirst.symm.trans hlast)
    have hsplit : significant rest = initial ++ last :: behind := by
      rw [hrest]
      simp
    obtain ⟨inner, rest', rfl, hinner, -⟩ := exists_split_of_significant hsplit
    refine ⟨front, [first] ++ inner ++ [last], rest', by simp, ?_,
      ⟨first, inner ++ [last], rfl, hstart⟩, ⟨[first] ++ inner, last, rfl, hstop⟩⟩
    rw [significant_append, significant_append, hkeptFirst, hinner, hkeptLast, hlast]
    rfl

/-- The text of a run of tokens has these tokens on its own. -/
theorem exists_slice {source : String} {front run rest : List Lexeme} {s : Span}
    (h : tokenize source = .ok (front ++ run ++ rest)) (hs : Hull s run) :
    ∃ before text behind ms, Slice source s before text behind ∧ tokenize text = .ok ms ∧
      run = ms.map (·.shift s.start) := by
  obtain ⟨most, cs, hsource, hmost, -⟩ := (tokenize_eq_ok_iff_cut.1 h).split
  obtain ⟨ds, es, rfl, -, hrun⟩ := hmost.split
  rw [Nat.zero_add] at hrun
  have hstart : utf8Length ds = s.start := by
    obtain ⟨l, more, rfl, hl⟩ := hs.start
    rw [hl, hrun.start_eq]
  have hstop : utf8Length ds + utf8Length es = s.stop := by
    obtain ⟨initial, l, rfl, hl⟩ := hs.stop
    rw [hl, hrun.stop_eq]
  have halone : Cut [] (0 + s.start) es run := by
    rw [Nat.zero_add, ← hstart]
    exact hrun.startsLike (.nil _)
  obtain ⟨ms, hms, hcut⟩ := halone.exists_shift
  refine ⟨String.ofList ds, String.ofList es, String.ofList cs, ms, ⟨?_, ?_, ?_⟩,
    tokenize_eq_ok_iff_cut.2 ?_, hms⟩
  · rw [← String.ofList_append, ← String.ofList_append, ← hsource, String.ofList_toList]
  · rw [Text.utf8ByteSize_ofList, hstart]
  · rw [← String.ofList_append, Text.utf8ByteSize_ofList, Text.utf8Length_append, hstop]
  · rw [String.toList_ofList]
    exact hcut

theorem exists_parse_take {source : String} {program : List Statement}
    (h : parse source = .ok program) (count : Nat) :
    ∃ text behind, source = text ++ behind ∧ parse text = .ok (program.take count) := by
  obtain ⟨ls, hls, n, hn, hprogram⟩ := exists_isProgram_of_parse h
  obtain ⟨before, behind, hsplit, m, hm, hbefore⟩ := hprogram.exists_take count
  obtain ⟨front, rest, rfl, rfl, -⟩ := List.filter_eq_append_iff.1 hsplit
  obtain ⟨cs, ds, hsource, hfront, -⟩ := (tokenize_eq_ok_iff_cut.1 hls).split
  have htext : tokenize (String.ofList cs) = .ok front := by
    rw [tokenize_eq_ok_iff_cut, String.toList_ofList]
    exact hfront.startsLike (.nil _)
  refine ⟨String.ofList cs, String.ofList ds, ?_, ?_⟩
  · rw [← String.ofList_append, ← hsource, String.ofList_toList]
  · exact parse_eq_ok_iff.2 ⟨front, _, htext, (Parser.settles_program hbefore).done (by omega)⟩

private theorem exists_parse_of_stands {text : String} {ms : List Lexeme} {e : Expr} {n bytes : Nat}
    (htext : tokenize text = .ok ms) (he : Stands e n ((significant ms).map (·.shift bytes)))
    (hn : n ≤ maxNesting) :
    ∃ alone, parse text = .ok [.expression alone] ∧ alone.shift bytes = e := by
  obtain ⟨m, hm, hderives⟩ := he
  have hread := (Parser.settles_program (.last (.expression hderives))).done (by omega)
  have hsep : Parser.Separated [] := nofun
  have hmoved := Parser.program_moved bytes hsep ⟨significant ms, 0⟩
  unfold Cursor.moved at hmoved
  rw [List.append_nil, hread] at hmoved
  cases halone : Parser.program ⟨significant ms, 0⟩ with
  | refused cause c => rw [halone] at hmoved; cases hmoved
  | halted cause c => rw [halone] at hmoved; cases hmoved
  | done program c =>
    rw [halone] at hmoved
    have hend : Parser.program { c with rest := [] } = .done [] { c with rest := [] } := rfl
    simp only [Parser.andThen, hend, Outcome.map, Outcome.bind, List.append_nil] at hmoved
    obtain ⟨s, rfl, hs⟩ := List.map_eq_singleton_iff.1 (Outcome.done.inj hmoved).1.symm
    cases s with
    | assign name nameSpan value => cases hs
    | expression alone =>
      exact ⟨alone, parse_eq_ok_iff.2 ⟨ms, c, htext, halone⟩, Statement.expression.inj hs⟩

private theorem ordered_of_tokenize {source : String} (h : tokenize source = .ok ls) : Ordered ls :=
  (tokenize_eq_ok_iff_cut.1 h).pairwise

private theorem Grammar.Ordered.significant (h : Ordered ls) :
    Ordered (significant ls) := h.filter _

private theorem Grammar.Ordered.total (h : Ordered ls) {l m : Lexeme} (hl : l ∈ ls) (hm : m ∈ ls) :
    l = m ∨ l.span.stop ≤ m.span.start ∨ m.span.stop ≤ l.span.start := by
  obtain ⟨front, rest, rfl⟩ := List.append_of_mem hl
  obtain ⟨-, hrest, hfront⟩ := List.pairwise_append.1 h
  rcases List.mem_append.1 hm with hm | hm
  · exact Or.inr (Or.inr (hfront m hm l List.mem_cons_self))
  · rcases List.mem_cons.1 hm with rfl | hm
    · exact Or.inl rfl
    · exact Or.inr (Or.inl ((List.pairwise_cons.1 hrest).1 m hm))

/-- Whether the spans of a program stand for its parts. The text at the span of a node is that node,
read on its own and moved; its children stand within it, one behind the other. Statements stand one
behind the other, too, each from its first token to its last. All tokens that are neither trivia nor
separators stand in statements; the others stand between statements, but for blanks between two
tokens of one. -/
structure SpansStand (source : String) (ls : List Lexeme) (program : List Statement) : Prop where
  node : ∀ s ∈ program, ∀ e, s.value.HasNode e →
    ∃ before text behind, Slice source e.span before text behind ∧
      ∃ alone, parse text = .ok [.expression alone] ∧ alone.shift e.span.start = e
  child : ∀ s ∈ program, ∀ e, s.value.HasNode e → ∀ c ∈ e.children, c.span.Inside e.span
  children : ∀ s ∈ program, ∀ e, s.value.HasNode e →
    e.children.Pairwise fun c d => c.span.Before d.span
  statements : program.Pairwise fun s t => s.span.Before t.span
  ends : ∀ s ∈ program, ∃ first ∈ ls, ∃ last ∈ ls,
    (first.token.isTrivia = false ∧ first.token.isSeparator = false) ∧
      (last.token.isTrivia = false ∧ last.token.isSeparator = false) ∧
        s.span.start = first.span.start ∧ s.span.stop = last.span.stop
  covered : ∀ l ∈ ls, l.token.isTrivia = false → l.token.isSeparator = false →
    ∃ s ∈ program, l.span.Inside s.span
  others : ∀ l ∈ ls, l.token.isTrivia = true ∨ l.token.isSeparator = true → ∀ s ∈ program,
    l.span.Before s.span ∨ s.span.Before l.span ∨
      l.token = .blank ∧ s.span.start < l.span.start ∧ l.span.stop < s.span.stop

section Program

variable {source : String} {program : List Statement} {n : Nat} {s : Statement}

private theorem exists_stands_of_node (h : Laid n program (significant ls)) (hs : s ∈ program)
    {e : Expr} (he : s.value.HasNode e) :
    ∃ before mid behind, significant ls = before ++ mid ++ behind ∧ Stands e n mid := by
  obtain ⟨before, run, behind, hsplit, m, hm, hrun⟩ := h.exists_run hs
  obtain ⟨name, value, rfl, hvalue⟩ := hrun.value
  obtain ⟨inner, mid, outer, rfl, p, hp, hderives⟩ := hvalue.exists_node he
  refine ⟨before ++ name ++ inner, mid, outer ++ behind, ?_, p, Nat.le_trans hp hm, hderives⟩
  rw [hsplit]
  simp only [List.append_assoc]

private theorem exists_slice_of_node (hls : tokenize source = .ok ls)
    (h : Laid n program (significant ls)) (hn : n ≤ maxNesting) (hs : s ∈ program) {e : Expr}
    (he : s.value.HasNode e) :
    ∃ before text behind, Slice source e.span before text behind ∧
      ∃ alone, parse text = .ok [.expression alone] ∧ alone.shift e.span.start = e := by
  obtain ⟨before, mid, behind, hsplit, hstands⟩ := exists_stands_of_node h hs he
  have hordered := (ordered_of_tokenize hls).significant
  rw [hsplit] at hordered
  obtain ⟨front, run, rest, rfl, rfl, hhull⟩ :=
    exists_run_of_significant hsplit (hstands.hull hordered.of_append)
  obtain ⟨before, text, behind, ms, hslice, htext, rfl⟩ := exists_slice hls hhull
  rw [significant_shift] at hstands
  exact ⟨before, text, behind, hslice, exists_parse_of_stands htext hstands hn⟩

private theorem mem_or_apart (hls : tokenize source = .ok ls) (h : Laid n program (significant ls))
    (hs : s ∈ program) {l : Lexeme} (hl : l ∈ significant ls) :
    (l.token.isSeparator = false ∧ l.span.Inside s.span) ∨ l.span.Before s.span ∨
      s.span.Before l.span := by
  have hordered := (ordered_of_tokenize hls).significant
  obtain ⟨before, run, behind, hsplit, m, -, hrun⟩ := h.exists_run hs
  rw [hsplit] at hordered hl
  have hhull := hrun.hull hordered.of_append
  obtain ⟨hfront, -, hbehind⟩ := List.pairwise_append.1 hordered
  obtain ⟨-, -, hbefore⟩ := List.pairwise_append.1 hfront
  rcases List.mem_append.1 hl with hinner | hmem
  · rcases List.mem_append.1 hinner with hmem | hmem
    · obtain ⟨first, more, rfl, hstart⟩ := hhull.start
      have hle := hbefore l hmem first List.mem_cons_self
      exact Or.inr (Or.inl (Nat.le_trans hle (Nat.le_of_eq hstart.symm)))
    · exact Or.inl ⟨hrun.inside l hmem, hhull.mem hordered.of_append hmem⟩
  · obtain ⟨initial, last, rfl, hstop⟩ := hhull.stop
    have hle := hbehind last (by simp) l hmem
    exact Or.inr (Or.inr (Nat.le_trans (Nat.le_of_eq hstop) hle))

private theorem exists_ends (hls : tokenize source = .ok ls) (h : Laid n program (significant ls))
    (hs : s ∈ program) :
    ∃ first ∈ significant ls, ∃ last ∈ significant ls, s.span.start = first.span.start ∧
      s.span.stop = last.span.stop ∧ first.token.isSeparator = false ∧
        last.token.isSeparator = false := by
  have hordered := (ordered_of_tokenize hls).significant
  obtain ⟨before, run, behind, hsplit, m, -, hrun⟩ := h.exists_run hs
  rw [hsplit] at hordered ⊢
  have hhull := hrun.hull hordered.of_append
  obtain ⟨first, more, hfirst, hstart⟩ := hhull.start
  obtain ⟨initial, last, hlast, hstop⟩ := hhull.stop
  have hmemFirst : first ∈ run := by simp [hfirst]
  have hmemLast : last ∈ run := by simp [hlast]
  refine ⟨first, ?_, last, ?_, hstart, hstop, hrun.inside first hmemFirst,
    hrun.inside last hmemLast⟩
  · simp [hmemFirst]
  · simp [hmemLast]

private theorem exists_newline_of_comment (hls : tokenize source = .ok ls) {content : String}
    {span : Span} (hl : ⟨.comment content, span⟩ ∈ ls) {last : Lexeme} (hlast : last ∈ ls)
    (hbehind : span.stop ≤ last.span.start) :
    ∃ next ∈ ls, next.token = .newline ∧ span.stop ≤ next.span.start ∧
      (last = next ∨ next.span.stop ≤ last.span.start) := by
  have hcut := tokenize_eq_ok_iff_cut.1 hls
  obtain ⟨-, hne, -⟩ := hcut.bounds _ hl
  obtain ⟨-, hneLast, -⟩ := hcut.bounds last hlast
  obtain ⟨front, rest, rfl⟩ := List.append_of_mem hl
  obtain ⟨-, hrest, hfront⟩ := List.pairwise_append.1 hcut.pairwise
  obtain ⟨hcomment, hrest⟩ := List.pairwise_cons.1 hrest
  simp only at hne hcomment
  rcases List.mem_append.1 hlast with hmem | hmem
  · have hle := hfront last hmem _ List.mem_cons_self
    simp only at hle
    omega
  · rcases List.mem_cons.1 hmem with rfl | hmem
    · simp only at hbehind
      omega
    · cases rest with
      | nil => cases hmem
      | cons next rest =>
        refine ⟨next, by simp, hcut.newline_of_comment, hcomment next List.mem_cons_self, ?_⟩
        rcases List.mem_cons.1 hmem with rfl | hmem
        · exact Or.inl rfl
        · exact Or.inr ((List.pairwise_cons.1 hrest).1 last hmem)

private theorem not_comment_within (hls : tokenize source = .ok ls)
    (h : Laid n program (significant ls)) (hs : s ∈ program) {content : String} {span : Span}
    (hl : ⟨.comment content, span⟩ ∈ ls) (hstart : s.span.start < span.stop) {last : Lexeme}
    (hlast : last ∈ ls) (hinside : last.token.isSeparator = false)
    (hstop : s.span.stop = last.span.stop) : ¬ span.stop ≤ last.span.start := by
  intro hbehind
  obtain ⟨next, hnext, hnewline, hafter, hlastAfter⟩ :=
    exists_newline_of_comment hls hl hlast hbehind
  have hseparator : next.token.isSeparator = true := by
    rw [hnewline]
    rfl
  have hplain : next.token.isTrivia = false := by
    rw [hnewline]
    rfl
  obtain ⟨-, hneLast, -⟩ := (tokenize_eq_ok_iff_cut.1 hls).bounds last hlast
  have hle := next.span.start_le_stop
  rcases mem_or_apart hls h hs (mem_significant_iff.2 ⟨hnext, hplain⟩) with
    ⟨hother, -⟩ | hbefore | hbehind
  · rw [hseparator] at hother
    cases hother
  · unfold Span.Before at hbefore
    omega
  · unfold Span.Before at hbehind
    rcases hlastAfter with rfl | hlastAfter
    · rw [hseparator] at hinside
      cases hinside
    · omega

private theorem blank_or_apart (hls : tokenize source = .ok ls)
    (h : Laid n program (significant ls)) (hs : s ∈ program) {l : Lexeme} (hl : l ∈ ls)
    (htrivia : l.token.isTrivia = true) :
    l.span.Before s.span ∨ s.span.Before l.span ∨
      l.token = .blank ∧ s.span.start < l.span.start ∧ l.span.stop < s.span.stop := by
  have hcut := tokenize_eq_ok_iff_cut.1 hls
  have hordered := ordered_of_tokenize hls
  obtain ⟨first, hfirst, last, hlast, hstart, hstop, -, hinside⟩ := exists_ends hls h hs
  obtain ⟨hfirst, hfirstPlain⟩ := mem_significant_iff.1 hfirst
  obtain ⟨hlast, hlastPlain⟩ := mem_significant_iff.1 hlast
  obtain ⟨-, hne, -⟩ := hcut.bounds l hl
  obtain ⟨-, hneFirst, -⟩ := hcut.bounds first hfirst
  obtain ⟨-, hneLast, -⟩ := hcut.bounds last hlast
  rcases hordered.total hl hfirst with rfl | hbefore | hbehindFirst
  · rw [htrivia] at hfirstPlain
    cases hfirstPlain
  · exact Or.inl (Nat.le_trans hbefore (Nat.le_of_eq hstart.symm))
  rcases hordered.total hl hlast with rfl | hbeforeLast | hbehind
  · rw [htrivia] at hlastPlain
    cases hlastPlain
  · refine Or.inr (Or.inr ⟨?_, by omega, by omega⟩)
    obtain ⟨token, span⟩ := l
    cases token with
    | blank => rfl
    | comment content =>
      simp only at hne hbehindFirst
      exact absurd hbeforeLast
        (not_comment_within hls h hs hl (by omega) hlast hinside hstop)
    | _ => cases htrivia
  · exact Or.inr (Or.inl (Nat.le_trans (Nat.le_of_eq hstop) hbehind))

/-- Spans point at the text that they stand for, in every source that is read. -/
theorem spans_point_at_their_text (h : parse source = .ok program) :
    ∃ ls, tokenize source = .ok ls ∧ SpansStand source ls program := by
  obtain ⟨ls, hls, n, hn, hprogram⟩ := exists_isProgram_of_parse h
  have hordered := (ordered_of_tokenize hls).significant
  have hlaid := hprogram.laid
  refine ⟨ls, hls, ?_⟩
  exact {
    node := fun s hs e he => exists_slice_of_node hls hlaid hn hs he
    child := fun s hs e he c hc => by
      obtain ⟨before, mid, behind, hsplit, hstands⟩ := exists_stands_of_node hlaid hs he
      rw [hsplit] at hordered
      exact hstands.children_within hordered.of_append hc
    children := fun s hs e he => by
      obtain ⟨before, mid, behind, hsplit, hstands⟩ := exists_stands_of_node hlaid hs he
      rw [hsplit] at hordered
      exact hstands.parts.pairwise hordered.of_append
    statements := hlaid.pairwise hordered
    ends := fun s hs => by
      obtain ⟨first, hfirst, last, hlast, hstart, hstop, hinsideFirst, hinsideLast⟩ :=
        exists_ends hls hlaid hs
      obtain ⟨hfirst, hplainFirst⟩ := mem_significant_iff.1 hfirst
      obtain ⟨hlast, hplainLast⟩ := mem_significant_iff.1 hlast
      exact ⟨first, hfirst, last, hlast, ⟨hplainFirst, hinsideFirst⟩, ⟨hplainLast, hinsideLast⟩,
        hstart, hstop⟩
    covered := fun l hl hplain hinside => by
      obtain ⟨s, hs, before, run, behind, hsplit, hmem, m, hrun⟩ :=
        hlaid.exists_mem (mem_significant_iff.2 ⟨hl, hplain⟩) hinside
      rw [hsplit] at hordered
      exact ⟨s, hs, (hrun.hull hordered.of_append).mem hordered.of_append hmem⟩
    others := fun l hl hother s hs => by
      cases htrivia : l.token.isTrivia with
      | true => exact blank_or_apart hls hlaid hs hl htrivia
      | false =>
        have hmem : l ∈ significant ls := mem_significant_iff.2 ⟨hl, htrivia⟩
        rcases mem_or_apart hls hlaid hs hmem with ⟨hinside, -⟩ | hbefore | hbehind
        · simp [htrivia, hinside] at hother
        · exact Or.inl hbefore
        · exact Or.inr (Or.inl hbehind) }

end Program

/-- The parentheses belong to the span of what stands between them. -/
theorem spans_point_at_their_text_sum :
    parse "a = (b+c)" = .ok [.assign "a" (.between 0 1) (.binary .add
        (.reference "b" (.between 5 6)) (.reference "c" (.between 7 8)) (.between 4 9))] ∧
      ∃ ls, tokenize "a = (b+c)" = .ok ls ∧ SpansStand "a = (b+c)" ls
        [.assign "a" (.between 0 1) (.binary .add (.reference "b" (.between 5 6))
          (.reference "c" (.between 7 8)) (.between 4 9))] := by
  have hparse : parse "a = (b+c)" = .ok [.assign "a" (.between 0 1) (.binary .add
      (.reference "b" (.between 5 6)) (.reference "c" (.between 7 8)) (.between 4 9))] := by
    refine parse_eq_ok_iff.2 ⟨[⟨.name "a", .between 0 1⟩, ⟨.blank, .between 1 2⟩,
      ⟨.symbol .equals, .between 2 3⟩, ⟨.blank, .between 3 4⟩, ⟨.symbol .leftParen, .between 4 5⟩,
      ⟨.name "b", .between 5 6⟩, ⟨.symbol .plus, .between 6 7⟩, ⟨.name "c", .between 7 8⟩,
      ⟨.symbol .rightParen, .between 8 9⟩], ⟨[], 0⟩, ?_, rfl⟩
    exact tokenize_eq_ok_iff.2 ⟨rfl, rfl⟩
  exact ⟨hparse, spans_point_at_their_text hparse⟩

end DiagramScope.Script
