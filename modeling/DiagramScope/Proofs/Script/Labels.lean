import DiagramScope.Proofs.Script.Evaluation.Spanned
import DiagramScope.Proofs.Script.Token.Tiling
import DiagramScope.Script.Interpreter

/-!
Where the labels of diagnostics lie. Main statement: every label lies within its source and can be
sliced out of it, but the label of a stray character that takes more than one byte, which ends
within that character.
-/

set_option autoImplicit false
set_option relaxedAutoImplicit false

namespace DiagramScope.Script

open Text (utf8Length)
open Grammar (IsProgram)
open Lexer (Piece pieces)

/-- Whether a byte offset lies between two characters of a source, or at one of its ends. -/
def IsBoundary (source : String) (offset : Nat) : Prop := (⟨offset⟩ : String.Pos.Raw).IsValid source

def Span.Sliceable (source : String) (s : Span) : Prop :=
  IsBoundary source s.start ∧ IsBoundary source s.stop

/-- Whether the labels of a diagnostic lie in a source. They start at boundaries and end at
boundaries, but for those of stray characters: each takes the first byte only, and so it ends at a
boundary just if this is all of the character. -/
structure Diagnostic.LiesIn (source : String) (d : Diagnostic) : Prop where
  within : ∀ l ∈ d.labels, l.span.start ≤ l.span.stop ∧ l.span.stop ≤ source.utf8ByteSize
  start : ∀ l ∈ d.labels, IsBoundary source l.span.start
  stop : d.code ≠ some .unexpectedCharacter → ∀ l ∈ d.labels, IsBoundary source l.span.stop
  stray : d.code = some .unexpectedCharacter → ∀ l ∈ d.labels, ∃ front c behind,
    source = front ++ String.singleton c ++ behind ∧ l.span.start = front.utf8ByteSize ∧
      l.span.stop = l.span.start + 1 ∧ (IsBoundary source l.span.stop ↔ c.utf8Size = 1)

variable {source : String} {ls : List Lexeme}

section Boundary

private theorem isBoundary_iff {offset : Nat} :
    IsBoundary source offset ↔ ∃ front behind, source = front ++ behind ∧
      front.utf8ByteSize = offset := by
  unfold IsBoundary
  rw [String.Pos.Raw.isValid_iff_exists_append]
  constructor
  · rintro ⟨front, behind, hsource, hoffset⟩
    exact ⟨front, behind, hsource, (congrArg String.Pos.Raw.byteIdx hoffset).symm⟩
  · rintro ⟨front, behind, hsource, rfl⟩
    exact ⟨front, behind, hsource, rfl⟩

private theorem isBoundary_of_split {front behind : List Char}
    (h : source.toList = front ++ behind) : IsBoundary source (utf8Length front) := by
  refine isBoundary_iff.2 ⟨String.ofList front, String.ofList behind, ?_, ?_⟩
  · rw [← String.ofList_append, ← h, String.ofList_toList]
  · exact Text.utf8ByteSize_ofList front

private theorem isBoundary_length (source : String) :
    IsBoundary source (utf8Length source.toList) :=
  isBoundary_of_split (List.append_nil _).symm

private theorem isBoundary_succ_iff {front behind : List Char} {c : Char}
    (h : source.toList = front ++ c :: behind) :
    IsBoundary source (utf8Length front + 1) ↔ c.utf8Size = 1 := by
  constructor
  · intro hboundary
    obtain ⟨front', behind', rfl, hlength⟩ := isBoundary_iff.1 hboundary
    rw [← Text.utf8Length_toList] at hlength
    rw [String.toList_append] at h
    have hc := c.utf8Size_pos
    rcases List.append_eq_append_iff.1 h with ⟨more, hmore, hbehind⟩ | ⟨more, hmore, hbehind⟩
    · rw [hmore, Text.utf8Length_append] at hlength
      omega
    · cases more with
      | nil =>
        rw [hmore, List.append_nil] at hlength
        omega
      | cons d more =>
        obtain ⟨rfl, -⟩ := List.cons.inj hbehind
        rw [hmore, Text.utf8Length_append, Text.utf8Length_cons] at hlength
        omega
  · intro hc
    have hsplit : source.toList = (front ++ [c]) ++ behind := by
      rw [h, List.append_assoc]
      rfl
    have hboundary := isBoundary_of_split hsplit
    rwa [Text.utf8Length_append, Text.utf8Length_cons, Text.utf8Length_nil, hc] at hboundary

private theorem Span.Sliceable.union {s t : Span} (hs : s.Sliceable source)
    (ht : t.Sliceable source) : (s.union t).Sliceable source := by
  constructor
  · rw [Span.start_union]
    rcases Nat.le_total s.start t.start with h | h
    · rw [Nat.min_eq_left h]
      exact hs.1
    · rw [Nat.min_eq_right h]
      exact ht.1
  · rw [Span.stop_union]
    rcases Nat.le_total s.stop t.stop with h | h
    · rw [Nat.max_eq_right h]
      exact ht.2
    · rw [Nat.max_eq_left h]
      exact hs.2

private theorem Slice.sliceable {s : Span} {front text behind : String}
    (h : Slice source s front text behind) : s.Sliceable source := by
  refine ⟨isBoundary_iff.2 ⟨front, text ++ behind, ?_, h.start⟩,
    isBoundary_iff.2 ⟨front ++ text, behind, h.source_eq, h.stop⟩⟩
  rw [← String.append_assoc]
  exact h.source_eq

end Boundary

section Diagnostics

private theorem Diagnostic.liesIn_of_sliceable {d : Diagnostic}
    (hcode : d.code ≠ some .unexpectedCharacter)
    (h : ∀ l ∈ d.labels, l.span.Sliceable source) : d.LiesIn source where
  within l hl := ⟨l.span.start_le_stop, (h l hl).2.le_utf8ByteSize⟩
  start l hl := (h l hl).1
  stop _ l hl := (h l hl).2
  stray hstray := absurd hstray hcode

private theorem sliceable_of_tokenize (h : tokenize source = .ok ls) {l : Lexeme} (hl : l ∈ ls) :
    l.span.Sliceable source := by
  obtain ⟨_, _, _, _, hslice, -⟩ := exists_alone h hl
  exact hslice.sliceable

private theorem LexFault.liesIn {f : LexFault} {front behind : List Char}
    (hsource : source.toList = front ++ behind) (h : f.FoundAt (utf8Length front) behind) :
    f.diagnostic.LiesIn source := by
  cases h with
  | @unclosedText text behind =>
    refine Diagnostic.liesIn_of_sliceable nofun (List.forall_mem_singleton.2 ⟨?_, ?_⟩)
    · exact isBoundary_of_split hsource
    · have hstop := isBoundary_of_split (hsource.trans (List.append_assoc front text behind).symm)
      rw [Text.utf8Length_append] at hstop
      simpa only [Span.between, Nat.max_eq_right (Nat.le_add_right _ _)] using hstop
  | strayCharacter c rest =>
    have hsplit : source.toList = front ++ c :: rest := hsource
    have hspan : Span.between (utf8Length front) (utf8Length front + 1) =
        ⟨utf8Length front, utf8Length front + 1, Nat.le_succ _⟩ :=
      Span.ext rfl (Nat.max_eq_right (Nat.le_succ _))
    have hlength : utf8Length front + 1 ≤ source.utf8ByteSize := by
      have hc := c.utf8Size_pos
      rw [← Text.utf8Length_toList, hsplit, Text.utf8Length_append, Text.utf8Length_cons]
      omega
    have htext : source = String.ofList front ++ String.singleton c ++ String.ofList rest := by
      rw [String.singleton_eq_ofList, ← String.ofList_append, ← String.ofList_append,
        List.append_assoc, List.singleton_append, ← hsplit, String.ofList_toList]
    simp only [diagnostic, Diagnostic.ofCode, hspan]
    exact {
      within := List.forall_mem_singleton.2 ⟨Nat.le_succ _, hlength⟩
      start := List.forall_mem_singleton.2 (isBoundary_of_split hsplit)
      stop := fun hcode => absurd rfl hcode
      stray := fun _ => List.forall_mem_singleton.2 ⟨_, c, _, htext,
        (Text.utf8ByteSize_ofList front).symm, rfl, isBoundary_succ_iff hsplit⟩ }

private theorem liesIn_of_tokenize : ∀ d ∈ reported (tokenize source), d.LiesIn source := by
  rw [reported_tokenize]
  intro d hd
  obtain ⟨f, hf, rfl⟩ := List.mem_map.1 hd
  obtain ⟨front, behind, hsource, -, hfound⟩ := Lexer.exists_foundAt hf
  rw [Nat.zero_add] at hfound
  exact LexFault.liesIn hsource hfound

private theorem SyntaxFault.liesIn (hls : ∀ l ∈ ls, l.span.Sliceable source) (cause : Cause)
    {c : Cursor} (hc : c.rest <:+ ls) :
    (SyntaxFault.ofCause cause c ls (utf8Length source.toList)).diagnostic.LiesIn source := by
  have hend : (Span.atOffset (utf8Length source.toList)).Sliceable source :=
    ⟨isBoundary_length source, isBoundary_length source⟩
  have hlast {l : Lexeme} (h : ls.getLast? = some l) : l.span.Sliceable source :=
    hls l (List.mem_of_getLast? h)
  have hfound {l : Lexeme} {rest : List Lexeme} (h : c.rest = l :: rest) :
      l.span.Sliceable source := hls l (hc.subset (h ▸ List.mem_cons_self))
  unfold SyntaxFault.ofCause
  split
  · next h => exact Diagnostic.liesIn_of_sliceable nofun (List.forall_mem_singleton.2 (hfound h))
  · refine Diagnostic.liesIn_of_sliceable nofun (List.forall_mem_cons.2 ⟨hend, ?_⟩)
    cases h : ls.getLast? with
    | none => exact nofun
    | some l => exact List.forall_mem_singleton.2 (hlast h)
  · next h => exact Diagnostic.liesIn_of_sliceable nofun (List.forall_mem_singleton.2 (hfound h))
  · refine Diagnostic.liesIn_of_sliceable nofun (List.forall_mem_singleton.2 ?_)
    cases h : ls.getLast? with
    | none => exact hend
    | some l => exact hlast h

private theorem liesIn_of_parse : ∀ d ∈ reported (parse source), d.LiesIn source := by
  unfold parse
  split
  · next problems h =>
    have htokens : ∀ d ∈ reported (tokenize source), d.LiesIn source := liesIn_of_tokenize
    rw [h] at htokens
    exact htokens
  · next ls h =>
    split
    · exact nofun
    · next fault hfault =>
      refine List.forall_mem_singleton.2 ?_
      have hls : ∀ l ∈ significant ls, l.span.Sliceable source :=
        fun l hl => sliceable_of_tokenize h (List.mem_filter.1 hl).1
      obtain ⟨cause, c, hhalted, rfl⟩ := parseLexemes_eq_error_iff.1 hfault
      have hreads : (Parser.program ⟨significant ls, 0⟩).commit.cursor.rest <:+ significant ls :=
        (Parser.orderly_statements _ ⟨significant ls, 0⟩).commit.leads.rest
      rw [significant, hhalted] at hreads
      exact SyntaxFault.liesIn hls cause hreads

/-- A fault of evaluation is reported at spans of the program. -/
theorem liesIn_of_executeAll {program : List Statement} (h : parse source = .ok program)
    {scope : Scope} {fault : EvaluationFault} (hfault : (executeAll scope program).2 = some fault) :
    fault.diagnostic.LiesIn source := by
  obtain ⟨ls, hls, n, -, hprogram⟩ := exists_isProgram_of_parse h
  have htokens : ∀ l ∈ significant ls, l.span.Sliceable source :=
    fun l hl => sliceable_of_tokenize hls (List.mem_filter.1 hl).1
  have hspanned := Grammar.spanned_of_isProgram (fun _ _ => .union) hprogram htokens
  refine Diagnostic.liesIn_of_sliceable ?_ (label_of_executeAll hspanned hfault)
  cases fault <;> exact nofun

end Diagnostics

/-- What is reported for a source lies in it, whether it is cut into tokens, read, run or evaluated
line by line. -/
theorem labels_lie_in_sources (source : String) (i : Interpreter) (lines : List String) :
    (∀ d ∈ reported (tokenize source), d.LiesIn source) ∧
      (∀ d ∈ reported (parse source), d.LiesIn source) ∧
        (∀ d ∈ reported (i.run source).2, d.LiesIn source) ∧
          ∀ d ∈ reported (i.evaluateLines lines), d.LiesIn (joinLines lines) := by
  have hrun {source : String} {scope : Scope} {program : List Statement}
      (h : parse source = .ok program) {fault : EvaluationFault}
      (hfault : (executeAll scope program).2 = some fault) :
      ∀ d ∈ (Diagnostics.single fault.diagnostic).all, d.LiesIn source :=
    List.forall_mem_singleton.2 (liesIn_of_executeAll h hfault)
  refine ⟨liesIn_of_tokenize, liesIn_of_parse, ?_, ?_⟩
  · have hparse : ∀ d ∈ reported (parse source), d.LiesIn source := liesIn_of_parse
    unfold Interpreter.run
    cases h : parse source with
    | error problems =>
      rw [h] at hparse
      exact hparse
    | ok program =>
      cases hfault : (executeAll (.fresh i.globals) program).2 with
      | none =>
        simp only [hfault]
        exact nofun
      | some fault =>
        simp only [hfault]
        exact hrun h hfault
  · have hparse : ∀ d ∈ reported (parse (joinLines lines)), d.LiesIn (joinLines lines) :=
      liesIn_of_parse
    unfold Interpreter.evaluateLines
    cases h : parse (joinLines lines) with
    | error problems =>
      rw [h] at hparse
      exact hparse
    | ok program =>
      cases hresult : executeAll (.fresh i.globals) program with
      | mk scope fault =>
        cases fault with
        | none =>
          simp only [hresult]
          exact nofun
        | some fault =>
          simp only [hresult]
          exact hrun h (congrArg Prod.snd hresult)

/-- The label of a stray letter with an accent ends between its two bytes. -/
theorem stray_label_ends_within_letter :
    reported (tokenize "é") = [⟨"unexpected character", some .unexpectedCharacter,
        [⟨⟨0, 1, Nat.zero_le 1⟩, "unexpected character", true⟩], none⟩] ∧
      ¬ IsBoundary "é" 1 := by
  have hletter : "é".toList = [] ++ 'é' :: [] := rfl
  exact ⟨by decide +kernel, fun h => absurd ((isBoundary_succ_iff hletter).1 h) (by decide)⟩

end DiagramScope.Script
