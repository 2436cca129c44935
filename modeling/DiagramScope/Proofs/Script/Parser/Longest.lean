import DiagramScope.Proofs.Script.Parser.Completeness
import DiagramScope.Proofs.Script.Parser.Nesting
import DiagramScope.Proofs.Script.Token.Reading

/-!
How long paths through expressions get. Main statement: the bounds that the nesting levels give are
kept by every program that is read, and there is a program that meets the bound on whole paths.
-/

set_option autoImplicit false
set_option relaxedAutoImplicit false

namespace DiagramScope.Script

def operands (operator : Symbol) : (count : Nat) → List Symbol
  | 0 => []
  | count + 1 => operator :: .leftBracket :: .rightBracket :: operands operator count

/-- The symbols of an expression that uses all levels at each depth: its first operand is a bracket
around the expression one level deeper, which is the base of a power, the first factor of a product
and the first term of a sum, both as long as the levels allow. -/
def fullest : (depth : Nat) → List Symbol
  | 0 => [.leftBracket, .rightBracket]
  | depth + 1 =>
    .leftBracket :: (fullest depth ++ .rightBracket :: .caret :: .leftBracket :: .rightBracket ::
      (operands .star (depth + 1) ++ operands .plus (depth + 1)))

def AreSymbols (ls : List Lexeme) (ss : List Symbol) : Prop :=
  ls.map Lexeme.token = ss.map Token.symbol

namespace AreSymbols

variable {ls : List Lexeme} {ss ss' : List Symbol} {s : Symbol}

private theorem exists_cons (h : AreSymbols ls (s :: ss)) :
    ∃ span more, ls = ⟨.symbol s, span⟩ :: more ∧ AreSymbols more ss := by
  obtain ⟨⟨t, span⟩, more, rfl, rfl, hmore⟩ := List.map_eq_cons_iff.1 h
  exact ⟨span, more, rfl, hmore⟩

private theorem exists_append (h : AreSymbols ls (ss ++ ss')) :
    ∃ first second, ls = first ++ second ∧ AreSymbols first ss ∧ AreSymbols second ss' := by
  unfold AreSymbols at h
  rw [List.map_append] at h
  exact List.map_eq_append_iff.1 h

private theorem eq_nil (h : AreSymbols ls []) : ls = [] := List.map_eq_nil_iff.1 h

end AreSymbols

/-- Some path through the expression makes so many turns that do not lead into a left operand, and
so many in all. -/
def Expr.HasPath (e : Expr) (levels length : Nat) : Prop :=
  ∃ path, e.Path path ∧ (Expr.charged path).length = levels ∧ path.length = length

private theorem Expr.HasPath.joined {e : Expr} {levels length : Nat} (h : e.HasPath levels length)
    (operator : Operator) (other : Expr) :
    (Expr.joined operator e other).HasPath levels (length + 1) := by
  obtain ⟨path, hpath, rfl, rfl⟩ := h
  exact ⟨.left :: path, .left operator other _ hpath, rfl, rfl⟩

private theorem Expr.HasPath.vector {e : Expr} {levels length : Nat} (h : e.HasPath levels length)
    (span : Span) : (Expr.vector [e] span).HasPath (levels + 1) (length + 1) := by
  obtain ⟨path, hpath, rfl, rfl⟩ := h
  exact ⟨.item :: path, .item span (List.mem_singleton.2 rfl) hpath, rfl, rfl⟩

namespace Grammar

open DiagramScope.Script.Parser (expressionLength)

section Fullest

variable {k : Chain} {symbol : Symbol} {operator : Operator} {count levels length : Nat}
  {left first : Expr} {ls ts rest : List Lexeme}

private theorem derives_emptyVector (k : Chain) (opening closing : Span) (rest : List Lexeme) :
    Derives (k.operand (.vector [] (opening.union closing))) 1
      (⟨.symbol .leftBracket, opening⟩ :: ⟨.symbol .rightBracket, closing⟩ :: rest) rest := by
  have hunary : Derives (.unary (.vector [] (opening.union closing))) 1
      (⟨.symbol .leftBracket, opening⟩ :: ⟨.symbol .rightBracket, closing⟩ :: rest) rest :=
    .unsigned (.base (.vector opening closing (.noItems _)))
  cases k with
  | sum => exact .chain (k := .product) hunary (.noLink _ _ _)
  | product => exact hunary

private theorem exists_derives_operands (hsymbol : k.operator? (.symbol symbol) = some operator)
    (hls : AreSymbols ls (operands symbol count)) (hleft : left.HasPath levels length)
    (rest : List Lexeme) :
    ∃ e n, Derives (.links k left e) n (ls ++ rest) rest ∧ n ≤ count + 1 ∧
      e.HasPath levels (length + count) := by
  induction count generalizing ls left length with
  | zero =>
    obtain rfl := hls.eq_nil
    exact ⟨left, 0, .noLink k left rest, Nat.zero_le _, hleft⟩
  | succ count ih =>
    obtain ⟨span, _, rfl, hbrackets⟩ := hls.exists_cons
    obtain ⟨opening, _, rfl, hclosing⟩ := hbrackets.exists_cons
    obtain ⟨closing, more, rfl, hmore⟩ := hclosing.exists_cons
    have hjoined := hleft.joined operator (.vector [] (opening.union closing))
    obtain ⟨e, n, hlinks, hn, hpath⟩ := ih hmore hjoined
    have hright := derives_emptyVector k opening closing (more ++ rest)
    refine ⟨e, max 1 n + 1, .link (l := ⟨.symbol symbol, span⟩) hsymbol hright hlinks, ?_, ?_⟩
    · omega
    · rw [show length + (count + 1) = length + 1 + count by omega]
      exact hpath

private theorem exists_derives_chain {m : Nat}
    (hfirst : Derives (k.operand first) m ts (ls ++ rest))
    (hsymbol : k.operator? (.symbol symbol) = some operator)
    (hls : AreSymbols ls (operands symbol count)) (hpath : first.HasPath levels length) :
    ∃ e n, Derives (.chain k e) n ts rest ∧ n ≤ max m (count + 1) ∧
      e.HasPath levels (length + count) := by
  obtain ⟨e, n, hlinks, hn, hlong⟩ := exists_derives_operands hsymbol hls hpath rest
  exact ⟨e, max m n, .chain hfirst hlinks, by omega, hlong⟩

private theorem expressionLength_succ (levels : Nat) :
    expressionLength (levels + 2) =
      expressionLength (levels + 1) + 1 + 1 + (levels + 1) + (levels + 1) := by
  have hpos : 0 < (levels + 1) * (levels + 1 + 1) := Nat.mul_pos (by omega) (by omega)
  have hsquare : (levels + 2) * (levels + 2 + 1) =
      (levels + 1) * (levels + 1 + 1) + 2 * (levels + 1) + 2 := by ring
  unfold expressionLength
  omega

/-- The expression that uses all levels is in the grammar, and has a path of the greatest length. -/
theorem exists_derives_fullest {depth : Nat} (hls : AreSymbols ls (fullest depth))
    (rest : List Lexeme) :
    ∃ e n, Derives (.chain .sum e) n (ls ++ rest) rest ∧ n ≤ depth + 1 ∧
      e.HasPath (depth + 1) (expressionLength (depth + 1)) := by
  induction depth generalizing ls rest with
  | zero =>
    obtain ⟨opening, _, rfl, hclosing⟩ := hls.exists_cons
    obtain ⟨closing, _, rfl, hnone⟩ := hclosing.exists_cons
    obtain rfl := hnone.eq_nil
    have hvector := derives_emptyVector .product opening closing rest
    exact ⟨_, 1, hvector.sum_of_unary, Nat.le_refl _, [.stop], .emptyVector _, rfl, rfl⟩
  | succ depth ih =>
    obtain ⟨opening, _, rfl, hinside⟩ := hls.exists_cons
    obtain ⟨deeper, _, rfl, hdeeper, hbehind⟩ := hinside.exists_append
    obtain ⟨closing, _, rfl, hpower⟩ := hbehind.exists_cons
    obtain ⟨caret, _, rfl, hexponent⟩ := hpower.exists_cons
    obtain ⟨opening', _, rfl, hclosing'⟩ := hexponent.exists_cons
    obtain ⟨closing', _, rfl, hchains⟩ := hclosing'.exists_cons
    obtain ⟨factors, terms, rfl, hfactors, hterms⟩ := hchains.exists_append
    -- the bracket around the expression one level deeper, and the power around it
    obtain ⟨e, n, hinner, hn, hpath⟩ := ih hdeeper (⟨.symbol .rightBracket, closing⟩ ::
      ⟨.symbol .caret, caret⟩ :: ⟨.symbol .leftBracket, opening'⟩ ::
        ⟨.symbol .rightBracket, closing'⟩ :: (factors ++ (terms ++ rest)))
    have hvector := Derives.vector opening closing (.items hinner (.noMore _))
    have hunary := Derives.unsigned
      (.raised hvector
        (derives_emptyVector .product opening' closing' (factors ++ (terms ++ rest))))
    have hpowerPath := (hpath.vector (opening.union closing)).joined .power
      (.vector [] (opening'.union closing'))
    -- the product and the sum around the power
    obtain ⟨product, m, hproduct, hm, hproductPath⟩ :=
      exists_derives_chain (k := .product) hunary
        (show Chain.product.operator? (.symbol .star) = some .multiply from rfl) hfactors hpowerPath
    obtain ⟨sum, m', hsum, hm', hsumPath⟩ :=
      exists_derives_chain (k := .sum) hproduct
        (show Chain.sum.operator? (.symbol .plus) = some .add from rfl) hterms hproductPath
    refine ⟨sum, m', ?_, by omega, ?_⟩
    · simp only [List.cons_append, List.append_assoc]
      exact hsum
    · rw [expressionLength_succ]
      exact hsumPath

end Fullest

end Grammar

section Text

private theorem not_slash_of_operands {operator : Symbol} (h : operator ≠ .slash) (count : Nat) :
    .slash ∉ operands operator count := by
  induction count with
  | zero => exact List.not_mem_nil
  | succ count ih =>
    intro hmem
    simp only [operands, List.mem_cons, reduceCtorEq, false_or] at hmem
    rcases hmem with hmem | hmem
    · exact h hmem.symm
    · exact ih hmem

private theorem not_slash_of_fullest (depth : Nat) : .slash ∉ fullest depth := by
  induction depth with
  | zero => decide
  | succ depth ih =>
    have hfactors := not_slash_of_operands (show Symbol.star ≠ .slash by decide) (depth + 1)
    have hterms := not_slash_of_operands (show Symbol.plus ≠ .slash by decide) (depth + 1)
    simp [fullest, ih, hfactors, hterms]

private theorem Lexer.reads_symbols {ss : List Symbol} (h : .slash ∉ ss) (rest : List Char) :
    Lexer.Reads (ss.map Symbol.toChar) (ss.map Token.symbol) rest := by
  induction ss with
  | nil => exact fun position => ⟨[], rfl, by simp⟩
  | cons s ss ih =>
    rw [List.mem_cons, not_or] at h
    exact (Lexer.reads_symbol (Ne.symm h.1) _).append (ih h.2)

def fullestText : String := String.ofList ((fullest (maxNesting - 1)).map Symbol.toChar)

private theorem exists_parse_fullestText :
    ∃ e, parse fullestText = .ok [.expression e] ∧
      e.HasPath maxNesting (maxNesting * (maxNesting + 1) - 1) := by
  obtain ⟨ls, htokenize, hls⟩ :=
    tokenize_of_reads (Lexer.reads_symbols (not_slash_of_fullest (maxNesting - 1)) [])
  have hsignificant : significant ls = ls := by
    apply List.filter_eq_self.2
    intro l hl
    have hmem : l.token ∈ ls.map Lexeme.token := List.mem_map_of_mem hl
    rw [hls] at hmem
    obtain ⟨s, -, hs⟩ := List.mem_map.1 hmem
    rw [← hs]
    rfl
  obtain ⟨e, n, hsum, hn, hpath⟩ := Grammar.exists_derives_fullest hls []
  rw [List.append_nil] at hsum
  have hprogram := Parser.settles_program (.last (.expression hsum))
  refine ⟨e, parse_eq_ok_iff.2 ⟨ls, ⟨[], 0⟩, htokenize, ?_⟩, hpath⟩
  rw [hsignificant]
  exact hprogram.done ((Nat.zero_add n).trans_le hn)

end Text

/-- What the nesting levels bound. On every path through an expression of a program that is read, at
most `maxNesting` signs, operators, vectors and calls are passed otherwise than into the left
operand of an operator, and at most `maxNesting * (maxNesting + 1) - 1` in all. The whole path has
at most `maxNesting` nodes exactly if it turns into left operands no more often than it leaves
levels unused. -/
theorem paths_bounded_by_levels {source : String} {program : List Statement}
    (h : parse source = .ok program) {s : Statement} (hs : s ∈ program) {path : List Turn}
    (hpath : s.value.Path path) :
    (path.filter fun turn => turn ≠ .left).length ≤ maxNesting ∧
      path.length ≤ maxNesting * (maxNesting + 1) - 1 ∧
        (path.length ≤ maxNesting ↔
          path.count .left ≤ maxNesting - (path.filter fun turn => turn ≠ .left).length) := by
  obtain ⟨hlevels, hlength⟩ := fits_of_parse h hs path hpath
  refine ⟨hlevels, hlength, ?_⟩
  have hsplit := Expr.length_charged_add_count path
  change (Expr.charged path).length ≤ maxNesting at hlevels
  change path.length ≤ maxNesting ↔ path.count .left ≤ maxNesting - (Expr.charged path).length
  omega

theorem paths_bounded_by_levels_signed :
    parse "-[x]" = .ok [.expression (.signed .minus
        (.vector [.reference "x" (.between 2 3)] (.between 1 4)) (.between 0 4))] ∧
      ([Turn.operand, .item].filter fun turn => turn ≠ .left).length ≤ maxNesting ∧
        [Turn.operand, .item].length ≤ maxNesting * (maxNesting + 1) - 1 ∧
          ([Turn.operand, .item].length ≤ maxNesting ↔ [Turn.operand, .item].count .left ≤
            maxNesting - ([Turn.operand, .item].filter fun turn => turn ≠ .left).length) := by
  have hparse : parse "-[x]" = .ok [.expression (.signed .minus
      (.vector [.reference "x" (.between 2 3)] (.between 1 4)) (.between 0 4))] := by
    refine parse_eq_ok_iff.2 ⟨[⟨.symbol .minus, .between 0 1⟩, ⟨.symbol .leftBracket, .between 1 2⟩,
      ⟨.name "x", .between 2 3⟩, ⟨.symbol .rightBracket, .between 3 4⟩], ⟨[], 0⟩, ?_, rfl⟩
    exact tokenize_eq_ok_iff.2 ⟨rfl, rfl⟩
  refine ⟨hparse, paths_bounded_by_levels hparse (List.mem_singleton.2 rfl) ?_⟩
  exact .operand .minus _ (.item _ (List.mem_singleton.2 rfl) (.reference "x" _))

/-- Neither bound can be lowered, and paths get longer than `maxNesting`. -/
theorem fullestText_exceeds_levels :
    ∃ e path, parse fullestText = .ok [.expression e] ∧ e.Path path ∧
      (path.filter fun turn => turn ≠ .left).length = maxNesting ∧
        path.length = maxNesting * (maxNesting + 1) - 1 ∧ maxNesting < path.length := by
  obtain ⟨e, hparse, path, hpath, hlevels, hlength⟩ := exists_parse_fullestText
  refine ⟨e, path, hparse, hpath, hlevels, hlength, ?_⟩
  rw [hlength]
  decide

end DiagramScope.Script
