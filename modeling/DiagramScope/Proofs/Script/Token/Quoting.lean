import DiagramScope.Proofs.Script.Spans
import DiagramScope.Script.Value

/-!
Quoted texts in front of other texts. Main statement: a text between two quotes, with every such
quote in it doubled, is cut off as one literal with this content, and what follows is cut as it is
alone; if the text goes over the end of a line, its literal is refused up to the first line end.
-/

set_option autoImplicit false
set_option relaxedAutoImplicit false

namespace DiagramScope.Script

open Text (utf8Length)
open Text.Quoted (double isLineEnd)
open Lexer (Piece pieces)

def doubled (quote : Char) (s : String) : String := String.ofList (double quote s.toList)

/-- A text between two quotes, with every such quote in it doubled. -/
def quotedBy (quote : Char) (s : String) : String :=
  String.singleton quote ++ doubled quote s ++ String.singleton quote

/-- Whether a literal in front of another text is read as its content, wherever it stands, and what
follows as it is alone, but moved: piece by piece, all tokens, and all problems. -/
structure ReadsBefore (literal content behind : String) : Prop where
  pieces (position : Nat) : pieces position 0 (literal ++ behind).toList =
    .lexeme ⟨.text content, .between position (position + literal.utf8ByteSize)⟩ ::
      (pieces 0 0 behind.toList).map (.shift (position + literal.utf8ByteSize))
  lexemes (ls : List Lexeme) : tokenize (literal ++ behind) = .ok ls ↔
    ∃ rest, tokenize behind = .ok rest ∧
      ls = ⟨.text content, .between 0 literal.utf8ByteSize⟩ ::
        rest.map (·.shift literal.utf8ByteSize)
  problems : reported (tokenize (literal ++ behind)) =
    (reported (tokenize behind)).map (·.shift literal.utf8ByteSize)

structure FirstLine (s front : String) (lineEnd : Char) (behind : String) : Prop where
  text_eq : s = front ++ String.singleton lineEnd ++ behind
  oneLine : OneLine front
  isLineEnd : isLineEnd lineEnd = true

/-- Whether the first problem of a source is a literal that is not closed, and its label covers the
source up to a line end. The other problems are those of what follows the line end, but moved. -/
structure BreaksAt (source front : String) (lineEnd : Char) (behind : String) (d : Diagnostic) :
    Prop where
  code : d.code.map Code.text = some "E001"
  span : ∃ s, d.primarySpan? = some s ∧
    Slice source s "" front (String.singleton lineEnd ++ behind)
  problems : reported (tokenize source) =
    d :: (reported (tokenize behind)).map (·.shift (front.utf8ByteSize + 1))

private theorem toList_doubled (quote : Char) (s : String) :
    (doubled quote s).toList = double quote s.toList := String.toList_ofList

private theorem doubled_append (quote : Char) (first second : String) :
    doubled quote (first ++ second) = doubled quote first ++ doubled quote second := by
  unfold doubled
  rw [String.toList_append, Text.Quoted.double_append, String.ofList_append]

private theorem doubled_singleton {quote c : Char} (h : c ≠ quote) :
    doubled quote (String.singleton c) = String.singleton c := by
  unfold doubled
  rw [String.toList_singleton, double, if_neg h, double, String.singleton_eq_ofList]

private theorem utf8Size_of_isLineEnd {c : Char} (h : isLineEnd c = true) : c.utf8Size = 1 := by
  have hcases : c = '\n' ∨ c = '\r' := by simpa [isLineEnd] using h
  rcases hcases with rfl | rfl <;> decide

private theorem exists_firstLine {s : String} (h : ¬ OneLine s) :
    ∃ front lineEnd behind, FirstLine s front lineEnd behind := by
  cases hfound : s.toList.find? isLineEnd with
  | none => exact absurd (fun c hc => Bool.eq_false_iff.2 (List.find?_eq_none.1 hfound c hc)) h
  | some lineEnd =>
    obtain ⟨hend, front, behind, htext, hfront⟩ := List.find?_eq_some_iff_append.1 hfound
    refine ⟨String.ofList front, lineEnd, String.ofList behind, ?_, ?_, hend⟩
    · rw [String.singleton_eq_ofList, ← String.ofList_append, ← String.ofList_append,
        List.append_assoc, List.singleton_append, ← htext, String.ofList_toList]
    · intro c hc
      rw [String.toList_ofList] at hc
      simpa using hfront c hc

namespace Lexer

private theorem pieces_of_unclosedText {position : Nat} {c d : Char} {more rest : List Char}
    (h : head c (more ++ d :: rest) = .unclosedText (more.length + 1)) :
    pieces position 0 (c :: (more ++ d :: rest)) =
      .fault (.unclosedText position (position + utf8Length (c :: more))) ::
        pieces (position + utf8Length (c :: more) + d.utf8Size) 0 rest := by
  have htaken : (c :: (more ++ d :: rest)).take (more.length + 1) = c :: more := by simp
  -- The fault covers `more` only, but one character more is skipped.
  have hbehind : pieces (position + c.utf8Size) (more.length + 1) (more ++ d :: rest) =
      pieces (position + c.utf8Size + utf8Length (more ++ [d])) 0 rest := by
    have hlength := pieces_length_append (position + c.utf8Size) (more ++ [d]) rest
    simpa using hlength
  rw [pieces_cons, h]
  simp only [Head.piece, htaken, hbehind, Text.utf8Length_append, Text.utf8Length_cons,
    Text.utf8Length_nil, Nat.add_assoc, Nat.add_zero]

private theorem head_double_lineEnd {quote : Char} (hquote : quote = '"' ∨ quote = '\'')
    {front : String}
    (hline : OneLine front) {lineEnd : Char} (hend : isLineEnd lineEnd = true) (rest : List Char) :
    head quote (double quote front.toList ++ lineEnd :: rest) =
      .unclosedText ((double quote front.toList).length + 1) := by
  have hother : quote ≠ '/' ∧ isLineEnd quote = false := by
    rcases hquote with rfl | rfl <;> decide
  obtain ⟨hslash, hinner⟩ := hother
  have hinside := Text.Quoted.inside_double_lineEnd hinner hline hend rest
  unfold head
  simp [hslash, hquote, hinside]

end Lexer

section Cutting

variable {source behind : String} {bytes : Nat}

private theorem reported_of_pieces (first : List Piece)
    (h : pieces 0 0 source.toList = first ++ (pieces 0 0 behind.toList).map (.shift bytes)) :
    reported (tokenize source) = (first.filterMap Piece.fault?).map LexFault.diagnostic ++
      (reported (tokenize behind)).map (·.shift bytes) := by
  rw [reported_tokenize, reported_tokenize, h, List.filterMap_append, Lexer.faults_shift,
    List.map_append, LexFault.map_diagnostic_shift]

private theorem tokenize_eq_ok_iff_of_pieces (first : List Lexeme)
    (h : pieces 0 0 source.toList =
      first.map .lexeme ++ (pieces 0 0 behind.toList).map (.shift bytes)) (ls : List Lexeme) :
    tokenize source = .ok ls ↔
      ∃ rest, tokenize behind = .ok rest ∧ ls = first ++ rest.map (·.shift bytes) := by
  simp only [tokenize_eq_ok_iff, h, List.filterMap_append, Lexer.faults_map_lexeme,
    Lexer.lexemes_map_lexeme, List.nil_append, Lexer.faults_shift, Lexer.lexemes_shift,
    List.map_eq_nil_iff]
  constructor
  · rintro ⟨hclean, rfl⟩
    exact ⟨_, ⟨hclean, rfl⟩, rfl⟩
  · rintro ⟨_, ⟨hclean, rfl⟩, rfl⟩
    exact ⟨hclean, rfl⟩

end Cutting

section Quoting

variable {quote : Char} (hquote : quote = '"' ∨ quote = '\'')

include hquote

/-- A text on one line is read back where no further quote follows. -/
theorem readsBefore_quotedBy {s behind : String} (hline : OneLine s)
    (hbehind : behind.toList.head? ≠ some quote) : ReadsBefore (quotedBy quote s) s behind := by
  have hstops : Lexer.Stops (· = quote) behind.toList := by
    rintro c more hc
    refine decide_eq_false fun heq => hbehind ?_
    rw [hc, heq]
    rfl
  have hhead := Lexer.head_double hquote hline hstops
  have hliteral : (quotedBy quote s).toList = quote :: (double quote s.toList ++ [quote]) := by
    simp [quotedBy, toList_doubled]
  have htext : (quotedBy quote s ++ behind).toList =
      quote :: (double quote s.toList ++ [quote] ++ behind.toList) := by
    rw [String.toList_append, hliteral, List.cons_append]
  have hsize : utf8Length (quote :: (double quote s.toList ++ [quote])) =
      (quotedBy quote s).utf8ByteSize := by
    rw [← hliteral, Text.utf8Length_toList]
  have hpieces (position : Nat) : pieces position 0 (quotedBy quote s ++ behind).toList =
      .lexeme ⟨.text s, .between position (position + (quotedBy quote s).utf8ByteSize)⟩ ::
        (pieces 0 0 behind.toList).map (.shift (position + (quotedBy quote s).utf8ByteSize)) := by
    rw [htext, Lexer.pieces_of_head hhead, hsize, ← Lexer.pieces_shift, Nat.zero_add]
  have hstart := hpieces 0
  rw [Nat.zero_add] at hstart
  exact {
    pieces := hpieces
    lexemes := tokenize_eq_ok_iff_of_pieces [_] hstart
    problems := reported_of_pieces [_] hstart }

/-- Behind a quote a text breaks at the end of its first line, whatever follows. -/
theorem exists_breaksAt {front : String} (hline : OneLine front) {lineEnd : Char}
    (hend : isLineEnd lineEnd = true) (behind : String) :
    ∃ d, BreaksAt (String.singleton quote ++ doubled quote front ++
        (String.singleton lineEnd ++ behind))
      (String.singleton quote ++ doubled quote front) lineEnd behind d := by
  generalize hopened : String.singleton quote ++ doubled quote front = opened
  have hfront : opened.toList = quote :: double quote front.toList := by
    simp [← hopened, toList_doubled]
  have htext : (opened ++ (String.singleton lineEnd ++ behind)).toList =
      quote :: (double quote front.toList ++ lineEnd :: behind.toList) := by
    simp [hfront]
  have hsize : utf8Length (quote :: double quote front.toList) = opened.utf8ByteSize := by
    rw [← hfront, Text.utf8Length_toList]
  have hpieces : pieces 0 0 (opened ++ (String.singleton lineEnd ++ behind)).toList =
      .fault (.unclosedText 0 opened.utf8ByteSize) ::
        (pieces 0 0 behind.toList).map (.shift (opened.utf8ByteSize + 1)) := by
    rw [htext, Lexer.pieces_of_unclosedText (Lexer.head_double_lineEnd hquote hline hend _), hsize,
      utf8Size_of_isLineEnd hend, ← Lexer.pieces_shift, Nat.zero_add, Nat.zero_add]
  have hslice : Slice (opened ++ (String.singleton lineEnd ++ behind))
      (.between 0 opened.utf8ByteSize) "" opened (String.singleton lineEnd ++ behind) := by
    refine ⟨by rw [String.empty_append], rfl, ?_⟩
    rw [String.empty_append]
    exact (Nat.zero_max _).symm
  exact ⟨_, {
    code := rfl
    span := ⟨_, rfl, hslice⟩
    problems := reported_of_pieces [_] hpieces }⟩

/-- Quoting is exact, with quotes of either kind and whatever follows. A text on one line is read
back where no further quote follows, and what follows is read as it is alone. A text with a line end
is refused from its opening quote up to the first one. Values that are texts are shown in double
quotes. -/
theorem quoting_is_exact (s behind : String) :
    (OneLine s → behind.toList.head? ≠ some quote → ReadsBefore (quotedBy quote s) s behind) ∧
      (¬ OneLine s → ∃ front lineEnd rest, FirstLine s front lineEnd rest ∧
        ∃ d, BreaksAt (quotedBy quote s ++ behind) (String.singleton quote ++ doubled quote front)
          lineEnd (doubled quote rest ++ String.singleton quote ++ behind) d) ∧
      (Value.text s).display = quotedBy '"' s := by
  refine ⟨readsBefore_quotedBy hquote, fun h => ?_, ?_⟩
  · obtain ⟨front, lineEnd, rest, hfirst⟩ := exists_firstLine h
    have hne : lineEnd ≠ quote := by
      rintro rfl
      rcases hquote with rfl | rfl <;> cases hfirst.isLineEnd
    have hsource : quotedBy quote s ++ behind =
        String.singleton quote ++ doubled quote front ++ (String.singleton lineEnd ++
          (doubled quote rest ++ String.singleton quote ++ behind)) := by
      rw [quotedBy, hfirst.text_eq, doubled_append, doubled_append, doubled_singleton hne]
      simp only [String.append_assoc]
    rw [hsource]
    exact ⟨front, lineEnd, rest, hfirst, exists_breaksAt hquote hfirst.oneLine hfirst.isLineEnd _⟩
  · rw [← String.toList_inj]
    simp [Value.display, Value.written, Value.quoted, Text.Quoted.encode, quotedBy, toList_doubled]

end Quoting

theorem quoting_is_exact_apostrophes :
    ('\'' = '"' ∨ '\'' = '\'') ∧
      (OneLine "'it''s \"é\"'" ∧ " + $".toList.head? ≠ some '\'' ∧
        ReadsBefore "'''it''''s \"é\"'''" "'it''s \"é\"'" " + $") ∧
      ¬ OneLine "a'\r\n'b" ∧ ∃ front lineEnd rest, FirstLine "a'\r\n'b" front lineEnd rest ∧
        ∃ d, BreaksAt "'a''\r\n''b' + $" (String.singleton '\'' ++ doubled '\'' front) lineEnd
          (doubled '\'' rest ++ String.singleton '\'' ++ " + $") d := by
  have hquoted : quotedBy '\'' "'it''s \"é\"'" = "'''it''''s \"é\"'''" := by decide
  have hbroken : quotedBy '\'' "a'\r\n'b" ++ " + $" = "'a''\r\n''b' + $" := by decide
  have hline : OneLine "'it''s \"é\"'" := by simp [OneLine, isLineEnd]
  have hlines : ¬ OneLine "a'\r\n'b" := fun h => absurd (h '\r' (by decide)) (by decide)
  have hread := (quoting_is_exact (.inr rfl) "'it''s \"é\"'" " + $").1 hline (by decide)
  have hbreak := (quoting_is_exact (.inr rfl) "a'\r\n'b" " + $").2.1 hlines
  rw [hquoted] at hread
  rw [hbroken] at hbreak
  exact ⟨.inr rfl, ⟨hline, by decide, hread⟩, hlines, hbreak⟩

end DiagramScope.Script
