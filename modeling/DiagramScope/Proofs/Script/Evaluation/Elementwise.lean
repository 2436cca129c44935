import DiagramScope.Script.Evaluation

/-!
Arithmetic on rows. Main statement: operators, signs and the functions that are applied to every
cell work cell by cell, where a side of one cell takes part at all places of the other; so indexing
the result is the same as indexing the operands.
-/

set_option autoImplicit false
set_option relaxedAutoImplicit false

namespace DiagramScope.Script

/-- Whether rows of so many cells can be combined: one has none or a single one, or both have as
many. -/
def Combinable (m n : Nat) : Prop := m = 0 ∨ n = 0 ∨ m = 1 ∨ n = 1 ∨ m = n

/-- The cell of a row that takes part at a place, counted from zero. A single cell takes part at all
places. -/
def cellAt? {α : Type} (cells : List α) (i : Nat) : Option α :=
  if cells.length = 1 then cells[0]? else cells[i]?

/-- Whether a row has an operation's results cell by cell: as many as the longer of two rows has
cells, at each place the one for the cells that take part there. -/
structure Spread {α β : Type} (f : α → α → β) (xs ys : List α) (zs : List β) : Prop where
  length : zs.length = max xs.length ys.length
  cell : ∀ i < zs.length, ∃ x y, cellAt? xs i = some x ∧ cellAt? ys i = some y ∧
    zs[i]? = some (f x y)

section Broadcast

variable {α β : Type} {f : α → α → β} {xs ys : List α} {i : Nat}

private theorem cellAt?_of_lt (h : i < xs.length) : cellAt? xs i = xs[i]? := by
  unfold cellAt?
  split
  · next hone =>
    obtain rfl : i = 0 := by omega
    rfl
  · rfl

private theorem ne_nil_of_cellAt? {x : α} (h : cellAt? xs i = some x) : xs ≠ [] := by
  rintro rfl
  cases h

private theorem spread_map_left (x : α) (hys : ys ≠ []) : Spread f [x] ys (ys.map (f x)) := by
  have hpos := List.length_pos_iff.2 hys
  constructor
  · rw [List.length_map, List.length_singleton]
    omega
  · intro i hi
    rw [List.length_map] at hi
    refine ⟨x, ys[i], rfl, ?_, ?_⟩
    · rw [cellAt?_of_lt hi, List.getElem?_eq_getElem hi]
    · rw [List.getElem?_map, List.getElem?_eq_getElem hi]
      rfl

private theorem Spread.swap {zs : List β} (h : Spread (fun y x => f x y) ys xs zs) :
    Spread f xs ys zs where
  length := h.length.trans (Nat.max_comm _ _)
  cell i hi := by
    obtain ⟨y, x, hy, hx, hcell⟩ := h.cell i hi
    exact ⟨x, y, hx, hy, hcell⟩

private theorem spread_map_right (y : α) (hxs : xs ≠ []) :
    Spread f xs [y] (xs.map fun x => f x y) :=
  (spread_map_left y hxs).swap

private theorem spread_zipWith (h : xs.length = ys.length) :
    Spread f xs ys (List.zipWith f xs ys) := by
  constructor
  · rw [List.length_zipWith]
    omega
  · intro i hi
    rw [List.length_zipWith] at hi
    have hx : i < xs.length := by omega
    have hy : i < ys.length := by omega
    refine ⟨xs[i], ys[i], ?_, ?_, ?_⟩
    · rw [cellAt?_of_lt hx, List.getElem?_eq_getElem hx]
    · rw [cellAt?_of_lt hy, List.getElem?_eq_getElem hy]
    · rw [List.getElem?_zipWith, List.getElem?_eq_getElem hx, List.getElem?_eq_getElem hy]

private theorem exists_broadcast (hxs : xs ≠ []) (hys : ys ≠ [])
    (h : Combinable xs.length ys.length) :
    ∃ zs, broadcast f xs ys = some zs ∧ Spread f xs ys zs := by
  unfold broadcast
  split
  · next x => exact ⟨_, rfl, spread_map_left x hys⟩
  · next y _ => exact ⟨_, rfl, spread_map_right y hxs⟩
  · next hleft hright =>
    have hx : xs.length ≠ 1 := fun hone => by
      obtain ⟨x, rfl⟩ := List.length_eq_one_iff.1 hone
      exact hleft x rfl
    have hy : ys.length ≠ 1 := fun hone => by
      obtain ⟨y, rfl⟩ := List.length_eq_one_iff.1 hone
      exact hright y rfl
    have hxpos := List.length_pos_iff.2 hxs
    have hypos := List.length_pos_iff.2 hys
    have hsame : xs.length = ys.length := by
      unfold Combinable at h
      omega
    rw [if_pos hsame]
    exact ⟨_, rfl, spread_zipWith hsame⟩

private theorem broadcast_eq_none (h : ¬ Combinable xs.length ys.length) :
    broadcast f xs ys = none := by
  unfold Combinable at h
  unfold broadcast
  split
  · rw [List.length_singleton] at h
    omega
  · rw [List.length_singleton] at h
    omega
  · exact if_neg (by omega)

end Broadcast

/-- Whether a value has an operation's results for two rows of numbers: the empty matrix if one of
them has no cell, else a row with the results cell by cell. -/
structure CellByCell (f : Float → Float → Float) (a b : List Float) (v : Value) : Prop where
  empty : a = [] ∨ b = [] → v = .empty
  cells : a ≠ [] → b ≠ [] → ∃ c, v = .ofNumbers c ∧ Spread f a b c

section Values

variable {x y v w : Value} {a b : List Float} {operator : Operator} {span : Span} {i : Nat}

@[simp]
private theorem Value.numbers?_ofNumbers (cells : List Float) :
    (Value.ofNumbers cells).numbers? = some cells :=
  match cells with
  | [] => rfl
  | [_] => rfl
  | _ :: _ :: _ => rfl

private theorem applyOperator_of_numbers (hx : x.numbers? = some a) (hy : y.numbers? = some b) :
    applyOperator operator x y span = applyNumeric operator a b span := by
  have htexts : x.texts? = none := by
    cases x with
    | text content => cases hx
    | texts cells => cases hx
    | _ => rfl
  unfold applyOperator
  rw [htexts, hx, hy]
  cases operator <;> rfl

private theorem exists_applyNumeric (h : Combinable a.length b.length) :
    ∃ v, applyNumeric operator a b span = .ok v ∧ CellByCell operator.apply a b v := by
  unfold applyNumeric
  by_cases hempty : a = [] ∨ b = []
  · have hbool : (a.isEmpty || b.isEmpty) = true := by simpa using hempty
    rw [if_pos hbool]
    refine ⟨.empty, rfl, fun _ => rfl, fun ha hb => ?_⟩
    exact absurd hempty (not_or.2 ⟨ha, hb⟩)
  · obtain ⟨ha, hb⟩ := not_or.1 hempty
    have hbool : ¬ (a.isEmpty || b.isEmpty) = true := by simpa using ⟨ha, hb⟩
    obtain ⟨c, hc, hspread⟩ := exists_broadcast (f := operator.apply) ha hb h
    rw [if_neg hbool]
    unfold combine
    rw [hc]
    exact ⟨.ofNumbers c, rfl, fun he => absurd he hempty, fun _ _ => ⟨c, rfl, hspread⟩⟩

private theorem applyNumeric_eq_error (h : ¬ Combinable a.length b.length) :
    applyNumeric operator a b span = .error (.operandLengths a.length b.length span) := by
  have ha : a ≠ [] := by
    rintro rfl
    exact h (Or.inl rfl)
  have hb : b ≠ [] := by
    rintro rfl
    exact h (Or.inr (Or.inl rfl))
  have hbool : ¬ (a.isEmpty || b.isEmpty) = true := by simpa using ⟨ha, hb⟩
  unfold applyNumeric combine
  rw [if_neg hbool, broadcast_eq_none h]
  rfl

private theorem cellByCell_of_applyNumeric (h : applyNumeric operator a b span = .ok v) :
    CellByCell operator.apply a b v := by
  by_cases hc : Combinable a.length b.length
  · obtain ⟨w, hw, hcells⟩ : ∃ w, applyNumeric operator a b span = .ok w ∧
        CellByCell operator.apply a b w := exists_applyNumeric hc
    rw [hw] at h
    exact Except.ok.inj h ▸ hcells
  · rw [applyNumeric_eq_error hc] at h
    cases h

private theorem applySign_of_numbers {sign : Sign} (hx : x.numbers? = some a) :
    applySign sign x span = .ok (.ofNumbers (a.map sign.apply)) := by
  unfold applySign
  rw [hx]

private theorem Builtin.apply_elementwise {g : Float → Float} {name : String}
    (hx : x.numbers? = some a) :
    (Builtin.elementwise g).apply name [x] span = .ok (.ofNumbers (a.map g)) := by
  change (numeric name x span).map (fun cells => Value.ofNumbers (cells.map g)) = _
  unfold numeric
  rw [hx]
  rfl

private theorem position?_pos {number : Float} (h : position? w = some (number, i)) : 0 < i := by
  unfold position? at h
  split at h
  · split at h
    · cases h
      exact Nat.succ_pos _
    · cases h
  · cases h

private theorem exists_element? (hv : v.numbers? = some a) (hi : 0 < i) (hle : i ≤ a.length) :
    ∃ w c, element? v i = some w ∧ w.numbers? = some [c] ∧ a[i - 1]? = some c := by
  have hscalar (c : Float) (ha : a = [c]) : i = 1 ∧ a[i - 1]? = some c := by
    subst ha
    rw [List.length_singleton] at hle
    obtain rfl : i = 1 := by omega
    exact ⟨rfl, rfl⟩
  cases v with
  | empty =>
    obtain rfl := Option.some.inj hv
    rw [List.length_nil] at hle
    omega
  | number c =>
    obtain ⟨rfl, hc⟩ := hscalar c (Option.some.inj hv).symm
    exact ⟨.number c, c, rfl, rfl, hc⟩
  | bool truth =>
    obtain ⟨rfl, hc⟩ := hscalar (Value.ofTruth truth) (Option.some.inj hv).symm
    exact ⟨.bool truth, Value.ofTruth truth, rfl, rfl, hc⟩
  | row cells =>
    obtain rfl := Option.some.inj hv
    have hlt : i - 1 < cells.length := by omega
    refine ⟨.number cells[i - 1], cells[i - 1], ?_, rfl, List.getElem?_eq_getElem hlt⟩
    change (cells[i - 1]?).map Value.number = _
    rw [List.getElem?_eq_getElem hlt]
    rfl
  | _ => cases hv

private theorem element?_ofNumbers {c : Float} (hi : 0 < i) (h : a[i - 1]? = some c) :
    element? (.ofNumbers a) i = some (.number c) := by
  match a with
  | [] => cases h
  | [x] =>
    obtain ⟨hlt, rfl⟩ := List.getElem?_eq_some_iff.1 h
    rw [List.length_singleton] at hlt
    obtain rfl : i = 1 := by omega
    rfl
  | x :: y :: more =>
    change ((x :: y :: more)[i - 1]?).map Value.number = _
    rw [h]
    rfl

end Values

section Expressions

variable {s : Scope} {e f : Expr} {x y : Value} {a b : List Float} {span : Span}

private theorem evaluate_binary {operator : Operator} (he : evaluate s e = .ok x)
    (hf : evaluate s f = .ok y) (hx : x.numbers? = some a) (hy : y.numbers? = some b) :
    evaluate s (.binary operator e f span) = applyNumeric operator a b span := by
  simp only [evaluate, he, hf]
  exact applyOperator_of_numbers hx hy

private theorem evaluate_signed {sign : Sign} (he : evaluate s e = .ok x)
    (hx : x.numbers? = some a) :
    evaluate s (.signed sign e span) = .ok (.ofNumbers (a.map sign.apply)) := by
  simp only [evaluate, he]
  exact applySign_of_numbers hx

private theorem evaluate_elementwise {name : String} {g : Float → Float} {nameSpan : Span}
    (hname : s.lookup? name = none) (hg : Builtin.ofName? name = some (.elementwise g))
    (he : evaluate s e = .ok x) (hx : x.numbers? = some a) :
    evaluate s (.call name nameSpan [e] span) = .ok (.ofNumbers (a.map g)) := by
  simp only [evaluate, evaluateAll, hname, hg, he]
  exact Builtin.apply_elementwise hx

end Expressions

def Scope.Denotes (s : Scope) (index : Expr) (i : Nat) : Prop :=
  ∃ w number, evaluate s index = .ok w ∧ position? w = some (number, i)

/-- An operand and the expression for its cell at a place, counted from one: a numeric variable is
indexed there, and an operand of a single cell stands for it at all places. -/
inductive CellOf (s : Scope) (i : Nat) : Expr → Expr → Prop where
  | indexed {name : String} {v : Value} {cells : List Float} {index : Expr}
      (hname : s.lookup? name = some v) (hv : v.numbers? = some cells)
      (hindex : s.Denotes index i) (hi : i ≤ cells.length) (nameSpan span span' : Span) :
      CellOf s i (.reference name span) (.call name nameSpan [index] span')
  | scalar {e : Expr} {v : Value} {c : Float} (he : evaluate s e = .ok v)
      (hv : v.numbers? = some [c]) : CellOf s i e e

/-- Whether an expression gives the cell at a place, counted from one, of what another computes: if
a name is bound, in whatever scope, to the value of the whole, the element of the name at this place
is the number that is the value of the part. -/
def GivesCell (s : Scope) (i : Nat) (whole part : Expr) : Prop :=
  ∀ v cells, evaluate s whole = .ok v → v.numbers? = some cells → i ≤ cells.length →
    ∀ (t : Scope) (name : String) (index : Expr) (nameSpan span : Span),
      t.lookup? name = some v → t.Denotes index i →
        ∃ r, evaluate t (.call name nameSpan [index] span) = .ok (.number r) ∧
          evaluate s part = .ok (.number r)

section Indexing

variable {s t : Scope} {i : Nat} {e e' f f' index : Expr} {name : String} {v w : Value}

private theorem Scope.Denotes.pos (h : s.Denotes index i) : 0 < i := by
  obtain ⟨_, _, -, hposition⟩ := h
  exact position?_pos hposition

private theorem evaluate_element (hname : s.lookup? name = some v) (hindex : s.Denotes index i)
    (h : element? v i = some w) (nameSpan span : Span) :
    evaluate s (.call name nameSpan [index] span) = .ok w := by
  obtain ⟨found, number, hfound, hposition⟩ := hindex
  simp only [evaluate, hname, hfound]
  change elementAt name v found index.span = .ok w
  unfold elementAt
  rw [hposition]
  simp only [h]

/-- An operand has a row of cells, and its cell at a place is the value of the expression for it. -/
theorem CellOf.exists_cell (h : CellOf s i e e') (hi : 0 < i) :
    ∃ v a w c, evaluate s e = .ok v ∧ v.numbers? = some a ∧ cellAt? a (i - 1) = some c ∧
      evaluate s e' = .ok w ∧ w.numbers? = some [c] := by
  cases h with
  | @indexed name v cells index hname hv hindex hle nameSpan span span' =>
    obtain ⟨w, c, helement, hw, hc⟩ := exists_element? hv hi hle
    have hlt : i - 1 < cells.length := by omega
    refine ⟨v, cells, w, c, ?_, hv, ?_, evaluate_element hname hindex helement _ _, hw⟩
    · simp only [evaluate, hname]
    · rw [cellAt?_of_lt hlt, hc]
  | @scalar _ v c he hv => exact ⟨v, [c], v, c, he, hv, rfl, he, hv⟩

/-- Where the whole is a row, it is enough to know the values of the part at its cells. -/
theorem givesCell_of_row {whole part : Expr}
    (h : ∀ v, 0 < i → evaluate s whole = .ok v →
      ∃ a, v = .ofNumbers a ∧ ∀ c, a[i - 1]? = some c → evaluate s part = .ok (.number c)) :
    GivesCell s i whole part := by
  intro v cells hwhole hv hle t name index nameSpan span hname hindex
  have hi := hindex.pos
  obtain ⟨a, rfl, hpart⟩ := h v hi hwhole
  rw [Value.numbers?_ofNumbers] at hv
  obtain rfl := Option.some.inj hv
  have hlt : i - 1 < a.length := by omega
  have hcell := List.getElem?_eq_getElem hlt
  exact ⟨a[i - 1], evaluate_element hname hindex (element?_ofNumbers hi hcell) _ _,
    hpart _ hcell⟩

private theorem givesCell_binary (he : CellOf s i e e') (hf : CellOf s i f f') (operator : Operator)
    (span span' : Span) :
    GivesCell s i (.binary operator e f span) (.binary operator e' f' span') := by
  refine givesCell_of_row fun v hi hv => ?_
  obtain ⟨x, a, p, c, hx, ha, hac, hp, hpc⟩ := he.exists_cell hi
  obtain ⟨y, b, q, d, hy, hb, hbd, hq, hqd⟩ := hf.exists_cell hi
  rw [evaluate_binary hx hy ha hb] at hv
  obtain ⟨cells, rfl, hspread⟩ :=
    (cellByCell_of_applyNumeric hv).cells (ne_nil_of_cellAt? hac) (ne_nil_of_cellAt? hbd)
  refine ⟨cells, rfl, fun r hr => ?_⟩
  obtain ⟨hlt, -⟩ := List.getElem?_eq_some_iff.1 hr
  obtain ⟨c', d', hc', hd', hr'⟩ := hspread.cell (i - 1) hlt
  obtain rfl := Option.some.inj (hac.symm.trans hc')
  obtain rfl := Option.some.inj (hbd.symm.trans hd')
  obtain rfl := Option.some.inj (hr.symm.trans hr')
  rw [evaluate_binary hp hq hpc hqd]
  rfl

private theorem givesCell_map {g : Float → Float} {whole part : Expr} (he : CellOf s i e e')
    (hwhole : ∀ x a, evaluate s e = .ok x → x.numbers? = some a →
      evaluate s whole = .ok (.ofNumbers (a.map g)))
    (hpart : ∀ x a, evaluate s e' = .ok x → x.numbers? = some a →
      evaluate s part = .ok (.ofNumbers (a.map g))) :
    GivesCell s i whole part := by
  refine givesCell_of_row fun v hi hv => ?_
  obtain ⟨x, a, p, c, hx, ha, hac, hp, hpc⟩ := he.exists_cell hi
  rw [hwhole x a hx ha] at hv
  refine ⟨a.map g, (Except.ok.inj hv).symm, fun r hr => ?_⟩
  obtain ⟨hlt, -⟩ := List.getElem?_eq_some_iff.1 hr
  rw [List.length_map] at hlt
  rw [cellAt?_of_lt hlt] at hac
  rw [List.getElem?_map, hac] at hr
  rw [hpart p [c] hp hpc]
  exact congrArg (fun r => Except.ok (Value.number r)) (Option.some.inj hr)

end Indexing

/-- Whether arithmetic in a scope works cell by cell. An operator between numeric operands succeeds
if their cells can be combined, with the results cell by cell, and is an error in the dimensions
otherwise; a sign, and a function that is applied to every cell, gives a row of its results. Each of
them may be indexed before it is computed or after. -/
structure Scope.WorksByCells (s : Scope) : Prop where
  operator : ∀ operator left right span x y a b, evaluate s left = .ok x →
    evaluate s right = .ok y → x.numbers? = some a → y.numbers? = some b →
      (Combinable a.length b.length → ∃ v,
        evaluate s (.binary operator left right span) = .ok v ∧
          CellByCell operator.apply a b v) ∧
      (¬ Combinable a.length b.length → ∃ fault,
        evaluate s (.binary operator left right span) = .error fault ∧
          fault.diagnostic.code.map Code.text = some "E204")
  sign : ∀ sign operand span x a, evaluate s operand = .ok x → x.numbers? = some a →
    evaluate s (.signed sign operand span) = .ok (.ofNumbers (a.map sign.apply))
  function : ∀ name g nameSpan argument span x a, s.lookup? name = none →
    Builtin.ofName? name = some (.elementwise g) → evaluate s argument = .ok x →
      x.numbers? = some a →
        evaluate s (.call name nameSpan [argument] span) = .ok (.ofNumbers (a.map g))
  operatorAt : ∀ i e e' f f', CellOf s i e e' → CellOf s i f f' → ∀ operator span span',
    GivesCell s i (.binary operator e f span) (.binary operator e' f' span')
  signAt : ∀ i e e', CellOf s i e e' → ∀ sign span span',
    GivesCell s i (.signed sign e span) (.signed sign e' span')
  functionAt : ∀ i e e', CellOf s i e e' → ∀ name g nameSpan nameSpan' span span',
    s.lookup? name = none → Builtin.ofName? name = some (.elementwise g) →
      GivesCell s i (.call name nameSpan [e] span) (.call name nameSpan' [e'] span')

/-- Arithmetic works cell by cell in every scope. -/
theorem arithmetic_works_by_cells (s : Scope) : s.WorksByCells where
  operator operator left right span x y a b hleft hright hx hy := by
    rw [evaluate_binary hleft hright hx hy]
    refine ⟨exists_applyNumeric, fun h => ?_⟩
    exact ⟨_, applyNumeric_eq_error h, rfl⟩
  sign _ _ _ _ _ he hx := evaluate_signed he hx
  function _ _ _ _ _ _ _ hname hg he hx := evaluate_elementwise hname hg he hx
  operatorAt _ _ _ _ _ he hf operator span span' := givesCell_binary he hf operator span span'
  signAt _ _ _ he _ _ _ :=
    givesCell_map he (fun _ _ => evaluate_signed) fun _ _ => evaluate_signed
  functionAt _ _ _ he _ _ _ _ _ _ hname hg :=
    givesCell_map he (fun _ _ => evaluate_elementwise hname hg)
      fun _ _ => evaluate_elementwise hname hg

end DiagramScope.Script
