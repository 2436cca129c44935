import DiagramScope.Script.Evaluation.Fault
import DiagramScope.Script.Token.Lexer

/-!
Texts that are moved: tokens, faults, syntax trees and diagnostics with every span changed, in
particular moved towards the end of the text by a number of bytes. Main statement: cutting a text
that stands at a later position gives the same pieces, moved.
-/

set_option autoImplicit false
set_option relaxedAutoImplicit false

namespace DiagramScope.Script

namespace Span

theorem between_shift (start stop bytes : Nat) :
    (between start stop).shift bytes = between (start + bytes) (stop + bytes) := by
  ext
  · rfl
  · simp only [between, shift]
    omega

end Span

def Label.shift (l : Label) (bytes : Nat) : Label := { l with span := l.span.shift bytes }

def Diagnostic.shift (d : Diagnostic) (bytes : Nat) : Diagnostic :=
  { d with labels := d.labels.map fun l => l.shift bytes }

/-- What a result reports: nothing if it is a success. -/
def reported {α : Type} : Except Diagnostics α → List Diagnostic
  | .ok _ => []
  | .error problems => problems.all

namespace LexFault

def shift (bytes : Nat) : LexFault → LexFault
  | unclosedText start stop => unclosedText (start + bytes) (stop + bytes)
  | strayCharacter position => strayCharacter (position + bytes)

private theorem diagnostic_shift (bytes : Nat) (fault : LexFault) :
    (fault.shift bytes).diagnostic = fault.diagnostic.shift bytes := by
  cases fault with
  | unclosedText start stop =>
    simp [shift, diagnostic, Diagnostic.ofCode, Diagnostic.shift, Label.shift, Span.between_shift]
  | strayCharacter position =>
    simp [shift, diagnostic, Diagnostic.ofCode, Diagnostic.shift, Label.shift, Span.between_shift,
      Nat.add_right_comm]

theorem map_diagnostic_shift (bytes : Nat) (faults : List LexFault) :
    (faults.map (shift bytes)).map diagnostic =
      (faults.map diagnostic).map fun d => d.shift bytes := by
  rw [List.map_map, List.map_map]
  exact List.map_congr_left fun fault _ => diagnostic_shift bytes fault

end LexFault

namespace Lexer

def Piece.shift (bytes : Nat) : Piece → Piece
  | lexeme l => lexeme (l.shift bytes)
  | fault f => fault (f.shift bytes)

private theorem Piece.lexeme?_shift (bytes : Nat) (piece : Piece) :
    (piece.shift bytes).lexeme? = piece.lexeme?.map fun l => l.shift bytes := by
  cases piece <;> rfl

private theorem Piece.fault?_shift (bytes : Nat) (piece : Piece) :
    (piece.shift bytes).fault? = piece.fault?.map (LexFault.shift bytes) := by
  cases piece <;> rfl

theorem faults_shift (bytes : Nat) (ps : List Piece) :
    (ps.map (Piece.shift bytes)).filterMap Piece.fault? =
      (ps.filterMap Piece.fault?).map (LexFault.shift bytes) := by
  rw [List.filterMap_map, List.map_filterMap]
  exact congrFun (congrArg List.filterMap (funext (Piece.fault?_shift bytes))) ps

theorem lexemes_shift (bytes : Nat) (ps : List Piece) :
    (ps.map (Piece.shift bytes)).filterMap Piece.lexeme? =
      (ps.filterMap Piece.lexeme?).map (·.shift bytes) := by
  rw [List.filterMap_map, List.map_filterMap]
  exact congrFun (congrArg List.filterMap (funext (Piece.lexeme?_shift bytes))) ps

private theorem Head.piece_shift (position bytes : Nat) (cs : List Char) (h : Head) :
    h.piece (position + bytes) cs =
      ((h.piece position cs).1.shift bytes, (h.piece position cs).2) := by
  cases h <;>
    simp [piece, Piece.shift, Lexeme.shift, LexFault.shift, Span.between_shift,
      Nat.add_right_comm]

theorem pieces_shift (position bytes skip : Nat) (cs : List Char) :
    pieces (position + bytes) skip cs = (pieces position skip cs).map (Piece.shift bytes) := by
  induction cs generalizing position skip with
  | nil => cases skip <;> rfl
  | cons c rest ih =>
    cases skip with
    | zero => simp [pieces, Head.piece_shift, Nat.add_right_comm position bytes, ih]
    | succ skip => simp [pieces, Nat.add_right_comm position bytes, ih]

end Lexer

namespace Expr

mutual

def mapSpan (f : Span → Span) : Expr → Expr
  | number value span => number value (f span)
  | text content span => text content (f span)
  | reference name span => reference name (f span)
  | vector items span => vector (mapSpanAll f items) (f span)
  | call name nameSpan arguments span =>
    call name (f nameSpan) (mapSpanAll f arguments) (f span)
  | signed sign operand span => signed sign (mapSpan f operand) (f span)
  | binary operator left right span =>
    binary operator (mapSpan f left) (mapSpan f right) (f span)

def mapSpanAll (f : Span → Span) : List Expr → List Expr
  | [] => []
  | e :: rest => mapSpan f e :: mapSpanAll f rest

end

@[simp]
theorem mapSpanAll_eq_map (f : Span → Span) (es : List Expr) :
    mapSpanAll f es = es.map (mapSpan f) := by
  induction es with
  | nil => rfl
  | cons e rest ih => simp [mapSpanAll, ih]

@[simp]
theorem span_mapSpan (f : Span → Span) (e : Expr) : (e.mapSpan f).span = f e.span := by
  cases e <;> rfl

private theorem mapSpan_withSpan (f : Span → Span) (s : Span) (e : Expr) :
    (e.withSpan s).mapSpan f = (e.mapSpan f).withSpan (f s) := by
  cases e <;> rfl

mutual

private theorem mapSpan_id (e : Expr) : e.mapSpan (fun s => s) = e := by
  cases e with
  | vector items s => rw [mapSpan, mapSpanAll_id items]
  | call name nameSpan arguments s => rw [mapSpan, mapSpanAll_id arguments]
  | signed sign operand s => rw [mapSpan, mapSpan_id operand]
  | binary operator left right s => rw [mapSpan, mapSpan_id left, mapSpan_id right]
  | _ => rfl

private theorem mapSpanAll_id (es : List Expr) : mapSpanAll (fun s => s) es = es := by
  cases es with
  | nil => rfl
  | cons e rest => rw [mapSpanAll, mapSpan_id e, mapSpanAll_id rest]

end

def shift (bytes : Nat) (e : Expr) : Expr := e.mapSpan fun s => s.shift bytes

@[simp]
theorem span_shift (bytes : Nat) (e : Expr) : (e.shift bytes).span = e.span.shift bytes :=
  span_mapSpan _ e

@[simp]
theorem shift_number (bytes : Nat) (value : Float) (s : Span) :
    (number value s).shift bytes = number value (s.shift bytes) := rfl

@[simp]
theorem shift_text (bytes : Nat) (content : String) (s : Span) :
    (text content s).shift bytes = text content (s.shift bytes) := rfl

@[simp]
theorem shift_reference (bytes : Nat) (name : String) (s : Span) :
    (reference name s).shift bytes = reference name (s.shift bytes) := rfl

@[simp]
theorem shift_vector (bytes : Nat) (items : List Expr) (s : Span) :
    (vector items s).shift bytes = vector (items.map (shift bytes)) (s.shift bytes) := by
  simp [shift, mapSpan]

@[simp]
theorem shift_call (bytes : Nat) (name : String) (nameSpan : Span) (arguments : List Expr)
    (s : Span) :
    (call name nameSpan arguments s).shift bytes =
      call name (nameSpan.shift bytes) (arguments.map (shift bytes)) (s.shift bytes) := by
  simp [shift, mapSpan]

@[simp]
theorem shift_signed (bytes : Nat) (sign : Sign) (operand : Expr) (s : Span) :
    (signed sign operand s).shift bytes = signed sign (operand.shift bytes) (s.shift bytes) := rfl

theorem shift_withSpan (bytes : Nat) (s : Span) (e : Expr) :
    (e.withSpan s).shift bytes = (e.shift bytes).withSpan (s.shift bytes) :=
  mapSpan_withSpan _ s e

theorem shift_joined (bytes : Nat) (operator : Operator) (left right : Expr) :
    (joined operator left right).shift bytes =
      joined operator (left.shift bytes) (right.shift bytes) := by
  simp [joined, shift, mapSpan, Span.shift_union]

end Expr

namespace Statement

def mapSpan (f : Span → Span) : Statement → Statement
  | assign name nameSpan value => assign name (f nameSpan) (value.mapSpan f)
  | expression value => expression (value.mapSpan f)

def shift (bytes : Nat) (s : Statement) : Statement := s.mapSpan fun s => s.shift bytes

theorem shift_zero (s : Statement) : s.shift 0 = s := by
  cases s with
  | assign name nameSpan value => exact congrArg (assign name nameSpan) value.mapSpan_id
  | expression value => exact congrArg expression value.mapSpan_id

end Statement

def EvaluationFault.mapSpan (f : Span → Span) : EvaluationFault → EvaluationFault
  | undefinedVariable name span => undefinedVariable name (f span)
  | unknownFunction name available span => unknownFunction name available (f span)
  | argumentCount function arity found span => argumentCount function arity found (f span)
  | indexCount name found span => indexCount name found (f span)
  | rejectedArgument function found span => rejectedArgument function found (f span)
  | notNumeric found span => notNumeric found (f span)
  | notElement found span => notElement found (f span)
  | mixedVector span => mixedVector (f span)
  | operandTypes operator left right span => operandTypes operator left right (f span)
  | operandLengths left right span => operandLengths left right (f span)
  | badIndex span => badIndex (f span)
  | indexOutOfBounds position name span => indexOutOfBounds position name (f span)
  | constantAssignment name span => constantAssignment name (f span)

end DiagramScope.Script
