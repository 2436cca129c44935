import DiagramScope.Proofs.Script.Evaluation.Layers
import DiagramScope.Proofs.Script.Parser.Completeness
import DiagramScope.Proofs.Script.Value.Copy

/-!
Assignments of written values. Main statements: the line that assigns to a name the text of a value
binds the name, and nothing else, to an equal value, and cannot be read if the value nests too
deeply.
-/

set_option autoImplicit false
set_option relaxedAutoImplicit false

namespace DiagramScope.Script

open Lexer (Reads Stops isInlineBlank)

private theorem isInlineBlank_of_isDigit {c : Char} (h : c.isDigit = true) :
    isInlineBlank c = false := by
  have hrange : 48 ≤ c.toNat ∧ c.toNat ≤ 57 := by
    simpa [Char.isDigit, UInt32.le_iff_toNat_le] using h
  have hblank : Text.isBlank c = false := by
    simp [Text.isBlank, Text.blankRanges]
    omega
  unfold isInlineBlank
  rw [hblank]
  rfl

private theorem stops_written {v : Value} (hfinite : v.isFinite = true) :
    Stops isInlineBlank v.written := by
  intro c more hc
  cases v with
  | number x =>
    obtain ⟨negative, y, whole, fraction, hspelled⟩ := Value.numberText_spelled hfinite
    change Value.numberText x = c :: more at hc
    rw [hspelled.text_eq] at hc
    cases negative with
    | true =>
      obtain ⟨rfl, -⟩ := List.cons.inj hc
      decide
    | false =>
      obtain ⟨d, digits, htext, hdigit⟩ := hspelled.spelled.exists_cons
      rw [htext] at hc
      obtain ⟨rfl, -⟩ := List.cons.inj hc
      exact isInlineBlank_of_isDigit hdigit
  | bool b => cases b <;> (obtain ⟨rfl, -⟩ := List.cons.inj hc; decide)
  | _ =>
    obtain ⟨rfl, -⟩ := List.cons.inj hc
    decide

private theorem reads_assignment {c : Char} {more : List Char} {v : Value} {ts : List Token}
    (hstart : Lexer.isNameStart c = true) (hmore : ∀ d ∈ more, Lexer.isNamePart d = true)
    (hfinite : v.isFinite = true) (hcuts : Cuts v.written ts) :
    Reads (c :: more ++ ([' '] ++ (['='] ++ ([' '] ++ v.written))))
      ([.name (String.ofList (c :: more))] ++ ([.blank] ++ ([.symbol .equals] ++ ([.blank] ++ ts))))
      [] := by
  have hvalue : Reads v.written ts [] := hcuts [] nofun
  have hblank : Reads [' '] [.blank] (v.written ++ []) := by
    rw [List.append_nil]
    exact Lexer.reads_blank (stops_written hfinite)
  have hequals := (Lexer.reads_symbol (s := .equals) (by decide) _).append (hblank.append hvalue)
  have hfirst : Stops isInlineBlank ((['='] ++ ([' '] ++ v.written)) ++ []) :=
    .cons (by decide) _
  have hname : Stops Lexer.isNamePart (([' '] ++ (['='] ++ ([' '] ++ v.written))) ++ []) :=
    .cons rfl _
  exact (Lexer.reads_name hstart hmore hname).append ((Lexer.reads_blank hfirst).append hequals)

private theorem exists_lexemes_assignment {name : String} {v : Value} {ts : List Token}
    (hname : IsName name) (hfinite : v.isFinite = true) (hcuts : Cuts v.written ts)
    (hplain : ∀ t ∈ ts, t.isTrivia = false) :
    ∃ ls nameSpan equalsSpan ms, tokenize (joinLines [name ++ " = " ++ v.display]) = .ok ls ∧
      significant ls = ⟨.name name, nameSpan⟩ :: ⟨.symbol .equals, equalsSpan⟩ :: ms ∧
        ms.map Lexeme.token = ts := by
  obtain ⟨c, more, rfl, hstart, hmore⟩ := hname
  obtain ⟨ls, htokenize, htokens⟩ :=
    tokenize_of_reads (reads_assignment hstart hmore hfinite hcuts)
  have hline : String.ofList (c :: more ++ ([' '] ++ (['='] ++ ([' '] ++ v.written)))) =
      joinLines [String.ofList (c :: more) ++ " = " ++ v.display] := by
    unfold joinLines Value.display
    rw [String.intercalate_singleton]
    apply String.toList_inj.1
    simp
  rw [hline] at htokenize
  have hsignificant : (significant ls).map Lexeme.token =
      [.name (String.ofList (c :: more)), .symbol .equals] ++ ts := by
    have hfilter : (significant ls).map Lexeme.token =
        (ls.map Lexeme.token).filter fun t => !t.isTrivia := by
      unfold significant
      rw [List.filter_map]
      rfl
    have hkept : ts.filter (fun t => !t.isTrivia) = ts := by
      apply List.filter_eq_self.2
      intro t ht
      rw [hplain t ht]
      rfl
    rw [hfilter, htokens]
    simp only [List.filter_append, hkept]
    rfl
  obtain ⟨⟨t, nameSpan⟩, behind, hls, rfl, hbehind⟩ := List.map_eq_cons_iff.1 hsignificant
  obtain ⟨⟨t, equalsSpan⟩, ms, rfl, rfl, hms⟩ := List.map_eq_cons_iff.1 hbehind
  exact ⟨ls, nameSpan, equalsSpan, ms, htokenize, hls, hms⟩

private theorem exists_isProgram_assignment {scope : Scope} {ls : List Lexeme} {levels : Nat}
    {v : Value} (h : Grammar.Spells scope (ls.map Lexeme.token) levels v) (name : String)
    (nameSpan equalsSpan : Span) :
    ∃ e, Grammar.IsProgram [.assign name nameSpan e] levels
        (⟨.name name, nameSpan⟩ :: ⟨.symbol .equals, equalsSpan⟩ :: ls) ∧
      evaluate scope e = .ok v := by
  obtain ⟨e, he, hvalue⟩ := h.derives ls [] rfl
  rw [List.append_nil] at he
  exact ⟨e, .last (.assign name nameSpan equalsSpan he.sum_of_unary), hvalue⟩

theorem parse_assignment_ne_ok {scope : Scope} {name : String} {v : Value} (hname : IsName name)
    (hcopies : Copies scope v.written v.levels v) (hfinite : v.isFinite = true)
    (hlevels : maxNesting < v.levels) (program : List Statement) :
    parse (joinLines [name ++ " = " ++ v.display]) ≠ .ok program := by
  obtain ⟨ts, copy, hcuts, hspells, -⟩ := hcopies
  obtain ⟨ls, nameSpan, equalsSpan, ms, htokenize, hls, rfl⟩ :=
    exists_lexemes_assignment hname hfinite hcuts hspells.plain
  obtain ⟨e, hassign, -⟩ := exists_isProgram_assignment hspells name nameSpan equalsSpan
  obtain ⟨c, hc⟩ := (Parser.settles_program hassign).halted (by omega)
  intro hparse
  obtain ⟨ls', c', htokenize', hprogram⟩ := parse_eq_ok_iff.1 hparse
  obtain rfl := Except.ok.inj (htokenize.symm.trans htokenize')
  rw [hls, hc] at hprogram
  cases hprogram

namespace Interpreter

/-- The line that assigns the text of a value to a name binds the name to an equal value. -/
theorem exists_evaluateLines_assignment {i : Interpreter} {name : String} {v : Value}
    (hname : IsName name) (hconstant : constant? name = none)
    (hcopies : Copies (.fresh i.globals) v.written v.levels v) (hfinite : v.isFinite = true)
    (hlevels : v.levels ≤ maxNesting) :
    ∃ copy, i.evaluateLines [name ++ " = " ++ v.display] =
        .ok (OrderedMap.empty.insert name copy) ∧ v.equals copy = true := by
  obtain ⟨ts, copy, hcuts, hspells, hequal⟩ := hcopies
  obtain ⟨ls, nameSpan, equalsSpan, ms, htokenize, hls, rfl⟩ :=
    exists_lexemes_assignment hname hfinite hcuts hspells.plain
  obtain ⟨e, hassign, hvalue⟩ := exists_isProgram_assignment hspells name nameSpan equalsSpan
  have hprogram := (Parser.settles_program hassign).done (by omega)
  refine ⟨copy, evaluateLines_eq_ok_iff.2 ⟨[.assign name nameSpan e], ?_, ?_⟩, hequal⟩
  · refine parse_eq_ok_iff.2 ⟨ls, ⟨[], 0⟩, htokenize, ?_⟩
    rw [hls]
    exact hprogram
  · simp only [executeAll, execute, hconstant, hvalue]
    rfl

end Interpreter

end DiagramScope.Script
