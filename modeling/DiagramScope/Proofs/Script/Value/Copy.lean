import DiagramScope.Proofs.Script.Syntax.Spelling
import DiagramScope.Proofs.Script.Token.Reading
import DiagramScope.Proofs.Script.Value.Number

/-!
The text of a value as an expression. Main statement: the text of a value without infinite or
undefined numbers is read as an expression whose value is equal, wherever the constants have their
values and, for lists, the name of the function that makes them is free.
-/

set_option autoImplicit false
set_option relaxedAutoImplicit false

namespace DiagramScope.Script

namespace Value

mutual

/-- Comparison of values. Numbers are compared as numbers, so that the two zeros are equal. -/
def equals : Value → Value → Bool
  | empty, empty => true
  | number x, number y => x == y
  | row xs, row ys => xs == ys
  | bool a, bool b => a == b
  | text s, text t => s == t
  | texts ss, texts ts => ss == ts
  | list vs, list ws => equalsAll vs ws
  | _, _ => false

def equalsAll : List Value → List Value → Bool
  | [], [] => true
  | v :: vs, w :: ws => equals v w && equalsAll vs ws
  | _, _ => false

end

def numberLevels (x : Float) : Nat := if (numberText x).head? = some '-' then 2 else 1

mutual

def levels : Value → Nat
  | number x => numberLevels x
  | row cells => (cells.map numberLevels).foldr max 0 + 1
  | texts _ => 2
  | list items => levelsAll items + 1
  | _ => 1

def levelsAll : List Value → Nat
  | [] => 0
  | v :: rest => max (levels v) (levelsAll rest)

end

mutual

def isFinite : Value → Bool
  | number x => isFiniteNumber x
  | row cells => cells.all isFiniteNumber
  | list items => allFinite items
  | _ => true

def allFinite : List Value → Bool
  | [] => true
  | v :: rest => isFinite v && allFinite rest

end

/-- Whether a value is the one that its cells and texts stand for: rows have at least two cells, and
texts are on one line. -/
inductive Canonical : Value → Prop where
  | empty : Canonical .empty
  | number (x : Float) : Canonical (.number x)
  | row {cells : List Float} (h : 2 ≤ cells.length) : Canonical (.row cells)
  | bool (b : Bool) : Canonical (.bool b)
  | text {s : String} (h : OneLine s) : Canonical (.text s)
  | texts {cells : List String} (h : 2 ≤ cells.length) (hline : ∀ s ∈ cells, OneLine s) :
      Canonical (.texts cells)
  | list {items : List Value} (h : ∀ v ∈ items, Canonical v) : Canonical (.list items)

private theorem isFinite_of_allFinite {items : List Value} (hall : allFinite items = true) :
    ∀ v ∈ items, v.isFinite = true := by
  induction items with
  | nil => exact nofun
  | cons w rest ih =>
    rw [allFinite, Bool.and_eq_true] at hall
    exact List.forall_mem_cons.2 ⟨hall.1, ih hall.2⟩

theorem commaSeparated_cons (first : List Char) (more : List (List Char)) :
    commaSeparated (first :: more) = first ++ more.flatMap fun cs => ',' :: cs := by
  induction more generalizing first with
  | nil => simp [commaSeparated]
  | cons next more ih =>
    change first ++ ',' :: commaSeparated (next :: more) = _
    rw [ih, List.flatMap_cons, List.cons_append]

end Value

open Lexer (Reads Stops)
open Grammar (Spells SpellsAll)

def continuesValue (c : Char) : Bool := c ≠ ',' && c ≠ ']' && c ≠ ')'

private theorem ends_of_stops {rest : List Char} (h : Stops continuesValue rest) (p : Char → Bool)
    (hcomma : p ',' = false) (hbracket : p ']' = false) (hparen : p ')' = false) :
    Stops p rest := by
  intro c more hc
  have hend := h c more hc
  unfold continuesValue at hend
  have hcases : c = ',' ∨ c = ']' ∨ c = ')' := by
    simp only [Bool.and_eq_false_iff, decide_eq_false_iff_not, not_not] at hend
    tauto
  rcases hcases with rfl | rfl | rfl
  · exact hcomma
  · exact hbracket
  · exact hparen

/-- The text `cs` of a value is cut into the tokens `ts` wherever a value may end. -/
def Cuts (cs : List Char) (ts : List Token) : Prop :=
  ∀ rest, Stops continuesValue rest → Reads cs ts rest

private theorem stops_flatMap {css : List (List Char)} {rest : List Char}
    (hrest : Stops continuesValue rest) :
    Stops continuesValue ((css.flatMap fun cs => ',' :: cs) ++ rest) := by
  cases css with
  | nil => exact hrest
  | cons cs more =>
    exact .cons rfl _

private theorem cuts_commaSeparated {css : List (List Char)} {tss : List (List Token)}
    (h : List.Forall₂ Cuts css tss) :
    Cuts (Value.commaSeparated css) (Grammar.itemTokens tss) := by
  have hmore : ∀ {css tss}, List.Forall₂ Cuts css tss →
      Cuts (css.flatMap fun cs => ',' :: cs) (Grammar.furtherTokens tss) := by
    intro css tss h
    induction h with
    | nil => exact fun rest _ position => ⟨[], rfl, rfl⟩
    | @cons cs ts css tss hfirst _ ih =>
      intro rest hrest
      have hitem : Reads (',' :: cs) (.symbol .comma :: ts)
          ((css.flatMap fun cs => ',' :: cs) ++ rest) :=
        (Lexer.reads_symbol (s := .comma) (by decide) _).append (hfirst _ (stops_flatMap hrest))
      exact hitem.append (ih rest hrest)
  cases h with
  | nil => exact fun rest _ position => ⟨[], rfl, rfl⟩
  | @cons cs ts css tss hfirst hrest' =>
    intro rest hrest
    rw [Value.commaSeparated_cons]
    exact (hfirst _ (stops_flatMap hrest)).append (hmore hrest' rest hrest)

/-- The text of a value is cut into tokens that spell an equal value in a scope, with so many
nesting levels. -/
def Copies (scope : Scope) (cs : List Char) (levels : Nat) (v : Value) : Prop :=
  ∃ ts copy, Cuts cs ts ∧ Spells scope ts levels copy ∧ v.equals copy = true

section Copies

variable {scope : Scope}

private theorem numberLevels_of_spelled {x y : Float} {negative : Bool} {whole fraction : List Char}
    (h : Value.NumberSpelled (Value.numberText x) x negative y whole fraction) :
    Value.numberLevels x = if negative then 2 else 1 := by
  unfold Value.numberLevels
  rw [h.text_eq]
  cases negative with
  | true => rfl
  | false =>
    obtain ⟨c, more, htext, hdigit⟩ := h.spelled.exists_cons
    have hsign : c ≠ '-' := by
      rintro rfl
      cases hdigit
    simp [Decimal.signed, htext, hsign]

private theorem exists_number_copy (scope : Scope) {x : Float} (h : Value.isFiniteNumber x = true) :
    ∃ ts y, Cuts (Value.numberText x) ts ∧
      Spells scope ts (Value.numberLevels x) (.number y) ∧ (x == y) = true := by
  obtain ⟨negative, y, whole, fraction, hspelled⟩ := Value.numberText_spelled h
  have hlevels := numberLevels_of_spelled hspelled
  have hdigits : Cuts (Decimal.pointed whole fraction) [.number y] := fun rest hrest =>
    Lexer.reads_number hspelled.spelled (ends_of_stops hrest _ (by decide) (by decide) (by decide))
  rw [hlevels, hspelled.text_eq]
  have hequal := hspelled.equal
  cases negative with
  | false => exact ⟨_, y, hdigits, .number y, hequal⟩
  | true =>
    refine ⟨[.symbol .minus, .number y], -y, ?_, .negated y, hequal⟩
    intro rest hrest
    exact (Lexer.reads_symbol (s := .minus) (by decide) _).append (hdigits rest hrest)

private theorem exists_number_copies (scope : Scope) {cells : List Float}
    (hfinite : ∀ x ∈ cells, Value.isFiniteNumber x = true) :
    ∃ tss ys, List.Forall₂ Cuts (cells.map Value.numberText) tss ∧
      SpellsAll scope tss ((cells.map Value.numberLevels).foldr max 0) (ys.map Value.number) ∧
        (cells == ys) = true := by
  induction cells with
  | nil => exact ⟨[], [], .nil, .nil, rfl⟩
  | cons x rest ih =>
    obtain ⟨hx, hrest⟩ := List.forall_mem_cons.1 hfinite
    obtain ⟨ts, y, hcuts, hspells, hequal⟩ := exists_number_copy scope hx
    obtain ⟨tss, ys, hcutsRest, hspellsRest, hequalRest⟩ := ih hrest
    refine ⟨ts :: tss, y :: ys, .cons hcuts hcutsRest, .cons hspells hspellsRest, ?_⟩
    exact (Bool.and_eq_true _ _).mpr ⟨hequal, hequalRest⟩

private theorem cuts_text {s : String} (h : OneLine s) :
    Cuts (Value.quoted s) [.text s] := fun _ hrest =>
  Lexer.reads_text h (ends_of_stops hrest _ (by decide) (by decide) (by decide))

private theorem cuts_bracketed {css : List (List Char)} {tss : List (List Token)}
    (h : List.Forall₂ Cuts css tss) :
    Cuts (Value.bracketed css)
      (.symbol .leftBracket :: (Grammar.itemTokens tss ++ [.symbol .rightBracket])) := by
  intro rest _
  have hinner := cuts_commaSeparated h (']' :: rest) (.cons rfl rest)
  have hopen := (Lexer.reads_symbol (s := .leftBracket) (by decide)
    (Value.commaSeparated css ++ ']' :: rest)).append hinner
  have hclose : Reads [']'] [.symbol .rightBracket] rest :=
    Lexer.reads_symbol (s := .rightBracket) (by decide) rest
  exact hopen.append hclose

private theorem copies_empty : Copies scope ['[', ']'] 1 .empty := by
  refine ⟨_, .empty, cuts_bracketed .nil, SpellsAll.nil.vector (c := .none) (Or.inl rfl) ?_, rfl⟩
  intro es hes
  obtain rfl : es = [] := List.forall₂_nil_right_iff.1 hes
  exact .nil

private theorem copies_row {cells : List Float} (h : 2 ≤ cells.length)
    (hfinite : cells.all Value.isFiniteNumber = true) :
    Copies scope (Value.bracketed (cells.map Value.numberText))
      ((cells.map Value.numberLevels).foldr max 0 + 1) (.row cells) := by
  obtain ⟨tss, ys, hcuts, hspells, hequal⟩ :=
    exists_number_copies scope (List.all_eq_true.1 hfinite)
  obtain ⟨a, b, rest, rfl⟩ : ∃ a b rest, ys = a :: b :: rest := by
    match cells, ys, h, hequal with
    | _ :: _ :: _, a :: b :: rest, _, _ => exact ⟨a, b, rest, rfl⟩
    | _ :: _ :: _, [_], _, hequal => simp at hequal
  exact ⟨_, .row (a :: b :: rest), cuts_bracketed hcuts,
    hspells.vector (Or.inr rfl) fun _ hes => hes.gathers_numbers, hequal⟩

private theorem spellsAll_texts (s : String) (more : List String) :
    SpellsAll scope ((s :: more).map fun s => [.text s]) 1 ((s :: more).map Value.text) := by
  induction more generalizing s with
  | nil => exact .cons (.text s) .nil
  | cons t more ih => exact .cons (.text s) (ih t)

theorem copies_text {s : String} (h : OneLine s) :
    Copies scope (Value.text s).written 1 (.text s) :=
  ⟨[.text s], .text s, cuts_text h, .text s, beq_self_eq_true s⟩

private theorem copies_texts {cells : List String} (h : 2 ≤ cells.length)
    (hline : ∀ s ∈ cells, OneLine s) :
    Copies scope (Value.bracketed (cells.map Value.quoted)) 2 (.texts cells) := by
  have hcuts : List.Forall₂ Cuts (cells.map Value.quoted) (cells.map fun s => [.text s]) := by
    rw [List.forall₂_map_left_iff, List.forall₂_map_right_iff, List.forall₂_same]
    exact fun s hs => cuts_text (hline s hs)
  obtain ⟨a, b, rest, rfl⟩ : ∃ a b rest, cells = a :: b :: rest := by
    match cells, h with
    | a :: b :: rest, _ => exact ⟨a, b, rest, rfl⟩
  exact ⟨_, .texts (a :: b :: rest), cuts_bracketed hcuts,
    (spellsAll_texts a (b :: rest)).vector (Or.inl rfl) fun _ hes => hes.gathers_texts,
    beq_self_eq_true (a :: b :: rest)⟩

private theorem exists_copies {items : List Value}
    (h : ∀ v ∈ items, Copies scope v.written v.levels v) :
    ∃ tss copies, List.Forall₂ Cuts (Value.writtenAll items) tss ∧
      SpellsAll scope tss (Value.levelsAll items) copies ∧
        Value.equalsAll items copies = true := by
  induction items with
  | nil => exact ⟨[], [], .nil, .nil, rfl⟩
  | cons v rest ih =>
    obtain ⟨hv, hrest⟩ := List.forall_mem_cons.1 h
    obtain ⟨ts, copy, hcuts, hspells, hequal⟩ := hv
    obtain ⟨tss, copies, hcutsRest, hspellsRest, hequalRest⟩ := ih hrest
    refine ⟨ts :: tss, copy :: copies, .cons hcuts hcutsRest, .cons hspells hspellsRest, ?_⟩
    rw [Value.equalsAll, hequal, hequalRest]
    rfl

private theorem copies_list {items : List Value} (hname : scope.lookup? "list" = none)
    (h : ∀ v ∈ items, Copies scope v.written v.levels v) :
    Copies scope
      (['l', 'i', 's', 't', '('] ++ Value.commaSeparated (Value.writtenAll items) ++ [')'])
      (Value.levelsAll items + 1) (.list items) := by
  obtain ⟨tss, copies, hcuts, hspells, hequal⟩ := exists_copies h
  refine ⟨_, .list copies, ?_, hspells.call hname rfl fun _ => rfl, hequal⟩
  intro rest _
  have hinner := cuts_commaSeparated hcuts (')' :: rest) (.cons rfl rest)
  have hopen := (Lexer.reads_symbol (s := .leftParen) (by decide)
    (Value.commaSeparated (Value.writtenAll items) ++ ')' :: rest)).append hinner
  have hword : Reads ['l', 'i', 's', 't'] [.name "list"]
      ('(' :: (Value.commaSeparated (Value.writtenAll items) ++ ')' :: rest)) := by
    exact Lexer.reads_name (c := 'l') (by decide) (List.all_eq_true.1 rfl) (.cons rfl _)
  have hclose : Reads [')'] [.symbol .rightParen] rest :=
    Lexer.reads_symbol (s := .rightParen) (by decide) rest
  exact (hword.append hopen).append hclose

/-- The text of a canonical value without infinite or undefined numbers is an expression for an
equal value. -/
theorem copies_written (htrue : scope.lookup? "%t" = some (.bool true))
    (hfalse : scope.lookup? "%f" = some (.bool false)) {v : Value} (hv : v.Canonical)
    (hfinite : v.isFinite = true)
    (hlist : ∀ items, v = .list items → scope.lookup? "list" = none) :
    Copies scope v.written v.levels v := by
  induction hv with
  | empty => exact copies_empty
  | number x =>
    obtain ⟨ts, y, hcopy⟩ := exists_number_copy scope hfinite
    exact ⟨ts, .number y, hcopy⟩
  | row h => exact copies_row h hfinite
  | bool b =>
    have hcuts {c : Char} (hc : Lexer.isNamePart c = true) :
        Cuts ['%', c] [.name (String.ofList ['%', c])] := fun rest hrest =>
      Lexer.reads_name (by decide) (List.forall_mem_singleton.2 hc)
        (ends_of_stops hrest _ (by decide) (by decide) (by decide))
    cases b with
    | true => exact ⟨_, .bool true, hcuts (by decide), .reference htrue, rfl⟩
    | false => exact ⟨_, .bool false, hcuts (by decide), .reference hfalse, rfl⟩
  | text h => exact copies_text h
  | texts h hline => exact copies_texts h hline
  | @list items h ih =>
    have hname := hlist items rfl
    apply copies_list hname
    intro v hv
    exact ih v hv (Value.isFinite_of_allFinite hfinite v hv) fun _ _ => hname

end Copies

end DiagramScope.Script
