import DiagramScope.Script.Syntax

/-!
Paths from the root of an expression down to its leaves, and bounds on the nodes that they pass.
-/

set_option autoImplicit false
set_option relaxedAutoImplicit false

namespace DiagramScope.Script

inductive Turn where
  /-- Into the operand of a sign. -/
  | operand
  /-- Into the left operand of an operator. -/
  | left
  /-- Into the right operand of an operator. -/
  | right
  /-- Into an item of a vector or an argument of a call. -/
  | item
  /-- It ends at a vector or a call without any. -/
  | stop
  deriving DecidableEq, Repr

namespace Expr

/-- The paths from the root of an expression to its leaves: one turn for each sign, operator, vector
and call on the way. -/
inductive Path : Expr → List Turn → Prop where
  | number (value : Float) (span : Span) : Path (.number value span) []
  | text (content : String) (span : Span) : Path (.text content span) []
  | reference (name : String) (span : Span) : Path (.reference name span) []
  | emptyVector (span : Span) : Path (.vector [] span) [.stop]
  | item {items : List Expr} {e : Expr} {path : List Turn} (span : Span) (he : e ∈ items)
      (hpath : Path e path) : Path (.vector items span) (.item :: path)
  | emptyCall (name : String) (nameSpan span : Span) :
      Path (.call name nameSpan [] span) [.stop]
  | argument {arguments : List Expr} {e : Expr} {path : List Turn} (name : String)
      (nameSpan span : Span) (he : e ∈ arguments) (hpath : Path e path) :
      Path (.call name nameSpan arguments span) (.item :: path)
  | operand {e : Expr} {path : List Turn} (sign : Sign) (span : Span) (hpath : Path e path) :
      Path (.signed sign e span) (.operand :: path)
  | left {e : Expr} {path : List Turn} (operator : Operator) (other : Expr) (span : Span)
      (hpath : Path e path) : Path (.binary operator e other span) (.left :: path)
  | right {e : Expr} {path : List Turn} (operator : Operator) (other : Expr) (span : Span)
      (hpath : Path e path) : Path (.binary operator other e span) (.right :: path)

/-- The turns of a path other than those into left operands. -/
def charged (path : List Turn) : List Turn := path.filter fun turn => turn ≠ .left

theorem length_charged_add_count (path : List Turn) :
    (charged path).length + path.count .left = path.length := by
  have hcharged : (charged path).length = path.countP fun turn => ¬ (turn == .left) := by
    unfold charged
    rw [← List.countP_eq_length_filter]
    exact List.countP_congr fun turn _ => by simp
  rw [hcharged, List.length_eq_countP_add_countP (fun turn => turn == .left), Nat.add_comm]
  rfl

/-- Every path makes at most `levels` turns that do not lead into a left operand, and at most
`length` turns in all. -/
def Fits (levels length : Nat) (e : Expr) : Prop :=
  ∀ path, e.Path path → (charged path).length ≤ levels ∧ path.length ≤ length

variable {levels levels' length length' : Nat} {e : Expr}

theorem Fits.mono (h : e.Fits levels length) (hlevels : levels ≤ levels')
    (hlength : length ≤ length') : e.Fits levels' length' := by
  intro path hpath
  obtain ⟨hcharged, hall⟩ := h path hpath
  exact ⟨Nat.le_trans hcharged hlevels, Nat.le_trans hall hlength⟩

theorem fits_number (value : Float) (span : Span) : (Expr.number value span).Fits 0 0 := by
  rintro path ⟨⟩
  exact ⟨Nat.le_refl _, Nat.le_refl _⟩

theorem fits_text (content : String) (span : Span) : (Expr.text content span).Fits 0 0 := by
  rintro path ⟨⟩
  exact ⟨Nat.le_refl _, Nat.le_refl _⟩

theorem fits_reference (name : String) (span : Span) : (Expr.reference name span).Fits 0 0 := by
  rintro path ⟨⟩
  exact ⟨Nat.le_refl _, Nat.le_refl _⟩

private theorem charged_cons {turn : Turn} (hturn : turn ≠ .left) {path : List Turn}
    (h : (charged path).length ≤ levels ∧ path.length ≤ length) :
    (charged (turn :: path)).length ≤ levels + 1 ∧ (turn :: path).length ≤ length + 1 := by
  obtain ⟨hcharged, hall⟩ := h
  have hcons : charged (turn :: path) = turn :: charged path := by simp [charged, hturn]
  rw [hcons, List.length_cons, List.length_cons]
  exact ⟨Nat.succ_le_succ hcharged, Nat.succ_le_succ hall⟩

theorem fits_vector {items : List Expr} (h : ∀ e ∈ items, e.Fits levels length) (span : Span) :
    (Expr.vector items span).Fits (levels + 1) (length + 1) := by
  intro path hpath
  cases hpath with
  | emptyVector => exact charged_cons (by decide) ⟨Nat.zero_le _, Nat.zero_le _⟩
  | item _ he hpath => exact charged_cons (by decide) (h _ he _ hpath)

theorem fits_call {arguments : List Expr} (h : ∀ e ∈ arguments, e.Fits levels length)
    (name : String) (nameSpan span : Span) :
    (Expr.call name nameSpan arguments span).Fits (levels + 1) (length + 1) := by
  intro path hpath
  cases hpath with
  | emptyCall => exact charged_cons (by decide) ⟨Nat.zero_le _, Nat.zero_le _⟩
  | argument _ _ _ he hpath => exact charged_cons (by decide) (h _ he _ hpath)

theorem fits_signed (h : e.Fits levels length) (sign : Sign) (span : Span) :
    (Expr.signed sign e span).Fits (levels + 1) (length + 1) := by
  intro path hpath
  cases hpath with
  | operand _ _ hpath => exact charged_cons (by decide) (h _ hpath)

/-- An operator charges a turn to its right operand only. -/
theorem fits_joined {right : Expr} (hleft : e.Fits (levels + 1) length)
    (hright : right.Fits levels length) (operator : Operator) :
    (Expr.joined operator e right).Fits (levels + 1) (length + 1) := by
  intro path hpath
  cases hpath with
  | left _ _ _ hpath =>
    obtain ⟨hcharged, hall⟩ := hleft _ hpath
    exact ⟨hcharged, Nat.succ_le_succ hall⟩
  | right _ _ _ hpath => exact charged_cons (by decide) (hright _ hpath)

theorem fits_withSpan (h : e.Fits levels length) (span : Span) :
    (e.withSpan span).Fits levels length := by
  intro path hpath
  refine h path ?_
  cases e with
  | number value s => cases hpath; exact .number value s
  | text content s => cases hpath; exact .text content s
  | reference name s => cases hpath; exact .reference name s
  | vector items s =>
    cases hpath with
    | emptyVector => exact .emptyVector s
    | item _ he hpath => exact .item s he hpath
  | call name nameSpan arguments s =>
    cases hpath with
    | emptyCall => exact .emptyCall name nameSpan s
    | argument _ _ _ he hpath => exact .argument name nameSpan s he hpath
  | signed sign operand s =>
    cases hpath with
    | operand _ _ hpath => exact .operand sign s hpath
  | binary operator l r s =>
    cases hpath with
    | left _ _ _ hpath => exact .left operator r s hpath
    | right _ _ _ hpath => exact .right operator l s hpath

end Expr

def Statement.value : Statement → Expr
  | assign _ _ value => value
  | expression value => value

end DiagramScope.Script
