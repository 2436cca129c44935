import Mathlib.Data.List.Forall2
import DiagramScope.Proofs.Script.Evaluation.Vectors
import DiagramScope.Proofs.Script.Syntax.Grammar

/-!
Values that are spelled out in tokens. Main statements: the tokens of numbers, texts, names, vectors
and calls derive from the grammar wherever they stand, with one nesting level more than the greatest
of their items, and the expression that they derive from has the value.
-/

set_option autoImplicit false
set_option relaxedAutoImplicit false

namespace DiagramScope.Script

def Evaluates (scope : Scope) (es : List Expr) (vs : List Value) : Prop :=
  List.Forall₂ (fun e v => evaluate scope e = .ok v) es vs

section Evaluates

variable {scope : Scope} {es : List Expr}

private theorem evaluateAll_of_evaluates {vs : List Value} (h : Evaluates scope es vs) :
    evaluateAll scope es = .ok vs := by
  induction h with
  | nil => rfl
  | cons hfirst _ ih =>
    simp only [evaluateAll, hfirst, ih]
    rfl

private theorem Evaluates.gathers {α : Type} {f : α → Value} {g : List α → Cells}
    (hnil : g [] = .none)
    (hcons : ∀ a as, ∃ first, (f a).cells? = some first ∧ g (a :: as) = first.join (g as))
    {as : List α} (h : Evaluates scope es (as.map f)) : Gathers scope es (g as) := by
  induction as generalizing es with
  | nil =>
    obtain rfl : es = [] := List.forall₂_nil_right_iff.1 h
    rw [hnil]
    exact .nil
  | cons a as ih =>
    obtain ⟨e, es, hvalue, hmore, rfl⟩ := List.forall₂_cons_right_iff.1 h
    obtain ⟨first, hfirst, hjoin⟩ := hcons a as
    rw [hjoin]
    exact .cons hvalue hfirst (ih hmore)

theorem Evaluates.gathers_numbers {cells : List Float}
    (h : Evaluates scope es (cells.map Value.number)) : Gathers scope es ⟨cells, []⟩ :=
  h.gathers (g := fun cells => ⟨cells, []⟩) rfl fun x _ => ⟨⟨[x], []⟩, rfl, rfl⟩

theorem Evaluates.gathers_texts {cells : List String}
    (h : Evaluates scope es (cells.map Value.text)) : Gathers scope es ⟨[], cells⟩ :=
  h.gathers (g := fun cells => ⟨[], cells⟩) rfl fun t _ => ⟨⟨[], [t]⟩, rfl, rfl⟩

end Evaluates

namespace Grammar

/-- In a scope the tokens spell a value: wherever they stand, they derive from a unary expression
with this value, with so many nesting levels. -/
structure Spells (scope : Scope) (ts : List Token) (levels : Nat) (v : Value) : Prop where
  plain : ∀ t ∈ ts, t.isTrivia = false
  derives : ∀ ls rest : List Lexeme, ls.map Lexeme.token = ts →
    ∃ e, Derives (.unary e) levels (ls ++ rest) rest ∧ evaluate scope e = .ok v

variable {scope : Scope}

namespace Spells

private theorem of_primary {t : Token} {v : Value} (hplain : t.isTrivia = false)
    (h : ∀ span rest, ∃ e, Derives (.primary e) 0 (⟨t, span⟩ :: rest) rest ∧
      evaluate scope e = .ok v) : Spells scope [t] 1 v := by
  refine ⟨List.forall_mem_singleton.2 hplain, fun ls rest hls => ?_⟩
  obtain ⟨⟨t, span⟩, none, rfl, rfl, hnone⟩ := List.map_eq_cons_iff.1 hls
  obtain rfl := List.map_eq_nil_iff.1 hnone
  obtain ⟨e, hprimary, hvalue⟩ := h span rest
  exact ⟨e, .unsigned (.base hprimary), hvalue⟩

theorem number (y : Float) : Spells scope [.number y] 1 (.number y) :=
  of_primary rfl fun span rest => ⟨_, .number y span rest, rfl⟩

theorem text (s : String) : Spells scope [.text s] 1 (.text s) :=
  of_primary rfl fun span rest => ⟨_, .text s span rest, rfl⟩

theorem reference {name : String} {v : Value} (h : scope.lookup? name = some v) :
    Spells scope [.name name] 1 v :=
  of_primary rfl fun span rest => ⟨_, .reference name span rest, by simp only [evaluate, h]⟩

theorem negated (y : Float) : Spells scope [.symbol .minus, .number y] 2 (.number (-y)) := by
  refine ⟨by simp [Token.isTrivia], fun ls rest hls => ?_⟩
  obtain ⟨⟨t, span⟩, more, rfl, rfl, hmore⟩ := List.map_eq_cons_iff.1 hls
  have hnumber : Spells scope [.number y] 1 (.number y) := number y
  obtain ⟨e, hoperand, hvalue⟩ := hnumber.derives more rest hmore
  have hsign : Parser.sign? (.symbol .minus) = some .minus := rfl
  refine ⟨_, .sign (l := ⟨.symbol .minus, span⟩) hsign hoperand, ?_⟩
  simp only [evaluate, hvalue]
  rfl

end Spells

def furtherTokens (tss : List (List Token)) : List Token :=
  tss.flatMap fun ts => .symbol .comma :: ts

def itemTokens : List (List Token) → List Token
  | [] => []
  | ts :: more => ts ++ furtherTokens more

inductive SpellsAll (scope : Scope) : List (List Token) → Nat → List Value → Prop where
  | nil : SpellsAll scope [] 0 []
  | cons {ts : List Token} {tss : List (List Token)} {m n : Nat} {v : Value} {vs : List Value}
      (hfirst : Spells scope ts m v) (hmore : SpellsAll scope tss n vs) :
      SpellsAll scope (ts :: tss) (max m n) (v :: vs)

namespace SpellsAll

variable {tss : List (List Token)} {n : Nat} {vs : List Value} {ls rest : List Lexeme}

private theorem exists_derives_more (h : SpellsAll scope tss n vs)
    (hls : ls.map Lexeme.token = furtherTokens tss) (rest : List Lexeme) :
    ∃ es, Derives (.moreItems es) n (ls ++ rest) rest ∧ Evaluates scope es vs := by
  induction h generalizing ls with
  | nil =>
    obtain rfl := List.map_eq_nil_iff.1 hls
    exact ⟨[], .noMore rest, .nil⟩
  | cons hfirst hmore ih =>
    obtain ⟨⟨t, comma⟩, behind, rfl, rfl, hbehind⟩ := List.map_eq_cons_iff.1 hls
    obtain ⟨item, others, rfl, hitem, hothers⟩ := List.map_eq_append_iff.1 hbehind
    obtain ⟨e, he, hvalue⟩ := hfirst.derives item (others ++ rest) hitem
    obtain ⟨es, hes, hvalues⟩ := ih hothers
    rw [List.cons_append, List.append_assoc]
    exact ⟨e :: es, .more comma he.sum_of_unary hes, .cons hvalue hvalues⟩

private theorem exists_derives_items (h : SpellsAll scope tss n vs)
    (hls : ls.map Lexeme.token = itemTokens tss) (rest : List Lexeme) :
    ∃ es, Derives (.items es) n (ls ++ rest) rest ∧ Evaluates scope es vs := by
  cases h with
  | nil =>
    obtain rfl := List.map_eq_nil_iff.1 hls
    exact ⟨[], .noItems rest, .nil⟩
  | cons hfirst hmore =>
    obtain ⟨item, others, rfl, hitem, hothers⟩ := List.map_eq_append_iff.1 hls
    obtain ⟨e, he, hvalue⟩ := hfirst.derives item (others ++ rest) hitem
    obtain ⟨es, hes, hvalues⟩ := hmore.exists_derives_more hothers rest
    rw [List.append_assoc]
    exact ⟨e :: es, .items he.sum_of_unary hes, .cons hvalue hvalues⟩

private theorem exists_derives_closed (h : SpellsAll scope tss n vs) {close : Symbol}
    (hls : ls.map Lexeme.token = itemTokens tss ++ [.symbol close]) (rest : List Lexeme) :
    ∃ es span, Derives (.items es) n (ls ++ rest) (⟨.symbol close, span⟩ :: rest) ∧
      Evaluates scope es vs := by
  obtain ⟨inner, last, rfl, hinner, hlast⟩ := List.map_eq_append_iff.1 hls
  obtain ⟨⟨t, span⟩, none, rfl, rfl, hnone⟩ := List.map_eq_cons_iff.1 hlast
  obtain rfl := List.map_eq_nil_iff.1 hnone
  obtain ⟨es, hes, hvalues⟩ := h.exists_derives_items hinner (⟨.symbol close, span⟩ :: rest)
  rw [List.append_assoc]
  exact ⟨es, span, hes, hvalues⟩

private theorem plain_further (h : SpellsAll scope tss n vs) :
    ∀ t ∈ furtherTokens tss, t.isTrivia = false := by
  induction h with
  | nil => exact nofun
  | cons hfirst _ ih =>
    intro t ht
    rcases List.mem_append.1 ht with ht | ht
    · rcases List.mem_cons.1 ht with rfl | ht
      · rfl
      · exact hfirst.plain t ht
    · exact ih t ht

private theorem plain_closed (h : SpellsAll scope tss n vs) (close : Symbol) :
    ∀ t ∈ itemTokens tss ++ [.symbol close], t.isTrivia = false := by
  intro t ht
  rcases List.mem_append.1 ht with ht | ht
  · cases h with
    | nil => cases ht
    | cons hfirst hmore =>
      rcases List.mem_append.1 ht with ht | ht
      · exact hfirst.plain t ht
      · exact hmore.plain_further t ht
  · obtain rfl := List.mem_singleton.1 ht
    rfl

theorem vector (h : SpellsAll scope tss n vs) {c : Cells} (huniform : c.Uniform)
    (hc : ∀ es, Evaluates scope es vs → Gathers scope es c) :
    Spells scope (.symbol .leftBracket :: (itemTokens tss ++ [.symbol .rightBracket])) (n + 1)
      c.toValue := by
  refine ⟨List.forall_mem_cons.2 ⟨rfl, h.plain_closed _⟩, fun ls rest hls => ?_⟩
  obtain ⟨⟨t, opening⟩, inner, rfl, rfl, hinner⟩ := List.map_eq_cons_iff.1 hls
  obtain ⟨es, close, hes, hvalues⟩ := h.exists_derives_closed hinner rest
  refine ⟨_, .unsigned (.base (.vector opening close hes)), ?_⟩
  exact evaluate_vector_eq_ok_iff.2 ⟨c, hc es hvalues, huniform, rfl⟩

theorem call (h : SpellsAll scope tss n vs) {name : String} {builtin : Builtin}
    (hname : scope.lookup? name = none) (hbuiltin : Builtin.ofName? name = some builtin) {v : Value}
    (hv : ∀ span, builtin.apply name vs span = .ok v) :
    Spells scope (.name name :: .symbol .leftParen :: (itemTokens tss ++ [.symbol .rightParen]))
      (n + 1) v := by
  have hplain := h.plain_closed .rightParen
  refine ⟨List.forall_mem_cons.2 ⟨rfl, List.forall_mem_cons.2 ⟨rfl, hplain⟩⟩, fun ls rest hls => ?_⟩
  obtain ⟨⟨t, nameSpan⟩, more, rfl, rfl, hmore⟩ := List.map_eq_cons_iff.1 hls
  obtain ⟨⟨t, opening⟩, inner, rfl, rfl, hinner⟩ := List.map_eq_cons_iff.1 hmore
  obtain ⟨es, close, hes, hvalues⟩ := h.exists_derives_closed hinner rest
  refine ⟨_, .unsigned (.base (.call name nameSpan opening close hes)), ?_⟩
  simp only [evaluate, hname, hbuiltin, evaluateAll_of_evaluates hvalues]
  exact hv _

end SpellsAll

end Grammar

end DiagramScope.Script
