import DiagramScope.Script.Span

/-!
Syntax trees of statements. Every expression carries the span of the text that it stands for.
-/

set_option autoImplicit false
set_option relaxedAutoImplicit false

namespace DiagramScope.Script

inductive Sign where
  | minus
  | plus
  deriving DecidableEq, Repr

inductive Operator where
  | add
  | subtract
  | multiply
  | divide
  | power
  deriving DecidableEq, Repr

def Sign.text : Sign → String
  | minus => "-"
  | plus => "+"

def Operator.text : Operator → String
  | add => "+"
  | subtract => "-"
  | multiply => "*"
  | divide => "/"
  | power => "^"

inductive Expr where
  | number (value : Float) (span : Span)
  | text (content : String) (span : Span)
  | reference (name : String) (span : Span)
  /-- A row of items between brackets. -/
  | vector (items : List Expr) (span : Span)
  /-- An element of a bound variable, or the value of a function if no variable has the name. -/
  | call (name : String) (nameSpan : Span) (arguments : List Expr) (span : Span)
  | signed (sign : Sign) (operand : Expr) (span : Span)
  | binary (operator : Operator) (left right : Expr) (span : Span)
  deriving Repr

namespace Expr

def span : Expr → Span
  | number _ s => s
  | text _ s => s
  | reference _ s => s
  | vector _ s => s
  | call _ _ _ s => s
  | signed _ _ s => s
  | binary _ _ _ s => s

def withSpan (s : Span) : Expr → Expr
  | number value _ => number value s
  | text content _ => text content s
  | reference name _ => reference name s
  | vector items _ => vector items s
  | call name nameSpan arguments _ => call name nameSpan arguments s
  | signed sign operand _ => signed sign operand s
  | binary operator left right _ => binary operator left right s

@[simp]
theorem span_withSpan (s : Span) (e : Expr) : (e.withSpan s).span = s := by
  cases e <;> rfl

/-- An operator between two operands, spanning both. -/
def joined (operator : Operator) (left right : Expr) : Expr :=
  binary operator left right (left.span.union right.span)

end Expr

inductive Statement where
  | assign (name : String) (nameSpan : Span) (value : Expr)
  /-- An expression that is evaluated and then forgotten. -/
  | expression (value : Expr)
  deriving Repr

def Statement.span : Statement → Span
  | assign _ nameSpan value => nameSpan.union value.span
  | expression value => value.span

end DiagramScope.Script
