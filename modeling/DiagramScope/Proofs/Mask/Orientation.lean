import DiagramScope.Proofs.Mask.Decoding

/-!
Masks that are stored in the other direction. Main statement: it does not matter to decoding, nor to
its faults, whether the texts of a mask are stored in columns or in rows, unless the descriptions
fill a square, which has both directions.
-/

set_option autoImplicit false
set_option relaxedAutoImplicit false

namespace DiagramScope

namespace Wire

mutual

/-- The value with all matrices of texts in it transposed. -/
def transposed : Wire → Wire
  | doubles m => doubles m
  | texts m => texts m.transpose
  | list items => list (transposedAll items)

def transposedAll : List Wire → List Wire
  | [] => []
  | w :: rest => transposed w :: transposedAll rest

end

@[simp]
private theorem length_transposedAll (items : List Wire) :
    (transposedAll items).length = items.length := by
  induction items with
  | nil => rfl
  | cons w rest ih => exact congrArg (· + 1) ih

/-- The descriptions of a stored mask, if the value has the lists and the texts where a mask has
them. -/
def descriptions? : Wire → Option (Matrix String)
  | list [_, list [_, texts m, _]] => some m
  | _ => none

end Wire

namespace Mask

namespace Orientation

def opposite : Orientation → Orientation
  | column => row
  | row => column

variable (orientation : Orientation) (m : Matrix String)

@[simp]
private theorem cell?_transpose (index : Nat) :
    orientation.opposite.cell? m.transpose index = orientation.cell? m index := by
  cases orientation <;> exact m.get?_transpose _ _

@[simp]
private theorem length_transpose :
    orientation.opposite.length m.transpose = orientation.length m := by
  cases orientation <;> rfl

variable {m}

private theorem ofDescriptions_transpose (h : m.rows ≠ m.cols) :
    ofDescriptions m.transpose = (ofDescriptions m).opposite := by
  change (if m.rows ≤ m.cols then column else row) =
    opposite (if m.cols ≤ m.rows then column else row)
  by_cases hle : m.rows ≤ m.cols
  · rw [if_pos hle, if_neg (by omega)]
    rfl
  · rw [if_neg hle, if_pos (by omega)]
    rfl

private theorem ofDescriptions_of_square (h : m.rows = m.cols) : ofDescriptions m = column :=
  if_pos (Nat.le_of_eq h.symm)

end Orientation

section Fields

variable (orientation : Orientation) (names values : Option (Matrix String))
  (descriptions : Matrix String)

private theorem cellOf_transpose (field : MaskField) (texts : Option (Matrix String))
    (index : Nat) : cellOf field orientation.opposite (texts.map Matrix.transpose) index =
      cellOf field orientation texts index := by
  cases texts with
  | none => rfl
  | some m => simp [cellOf]

private theorem entryAt_transpose (index : Nat) :
    entryAt orientation.opposite (names.map Matrix.transpose) (values.map Matrix.transpose)
        descriptions.transpose index =
      entryAt orientation names values descriptions index := by
  have hdescription := cellOf_transpose orientation .descriptions (some descriptions) (index + 1)
  rw [Option.map_some] at hdescription
  unfold entryAt
  rw [cellOf_transpose, cellOf_transpose, hdescription]

private theorem entriesFrom_transpose (count index : Nat) :
    entriesFrom orientation.opposite (names.map Matrix.transpose) (values.map Matrix.transpose)
        descriptions.transpose count index =
      entriesFrom orientation names values descriptions count index := by
  induction count generalizing index with
  | zero => rfl
  | succ count ih =>
    unfold entriesFrom
    rw [entryAt_transpose, ih]

/-- Three fields give the same mask, or the same fault, when they are transposed together. -/
theorem assemble_transpose (h : descriptions.rows = descriptions.cols → descriptions.rows < 2) :
    assemble (names.map Matrix.transpose) (values.map Matrix.transpose) descriptions.transpose =
      assemble names values descriptions := by
  unfold assemble
  by_cases hsquare : descriptions.rows = descriptions.cols
  · -- The title stands in the corner, and one cell leaves no place for rows.
    have hdown := Orientation.ofDescriptions_of_square hsquare
    have hdownTransposed : Orientation.ofDescriptions descriptions.transpose = .column :=
      Orientation.ofDescriptions_of_square hsquare.symm
    have htitle : Orientation.cell? descriptions.transpose 0 .column =
        Orientation.cell? descriptions 0 .column := descriptions.get?_transpose 0 0
    have hnoRows : Orientation.length descriptions .column - 1 = 0 :=
      Nat.sub_eq_zero_of_le (Nat.le_of_lt_succ (h hsquare))
    have hnoRowsTransposed : Orientation.length descriptions.transpose .column - 1 = 0 :=
      (congrArg (· - 1) hsquare.symm).trans hnoRows
    simp only [hdown, hdownTransposed, htitle, hnoRows, hnoRowsTransposed, entriesFrom]
  · simp only [Orientation.ofDescriptions_transpose hsquare, Orientation.cell?_transpose,
      Orientation.length_transpose, entriesFrom_transpose]

private theorem textsOrMarker_transposed (field : MaskField) (w : Wire) :
    textsOrMarker field w.transposed =
      (textsOrMarker field w).map (Option.map Matrix.transpose) := by
  cases w <;> rfl

private theorem pairOf_transposed (field : MaskField) (w : Wire) :
    pairOf field w.transposed =
      (pairOf field w).map fun items => (items.1.transposed, items.2.transposed) := by
  cases w with
  | list items =>
    match items with
    | [] | [_] | [_, _] => rfl
    | _ :: _ :: _ :: rest => simp [pairOf, listOf, Wire.transposed, Wire.transposedAll, Except.map]
  | _ => rfl

private theorem tripleOf_transposed (field : MaskField) (w : Wire) :
    tripleOf field w.transposed =
      (tripleOf field w).map fun items =>
        (items.1.transposed, items.2.1.transposed, items.2.2.transposed) := by
  cases w with
  | list items =>
    match items with
    | [] | [_] | [_, _] | [_, _, _] => rfl
    | _ :: _ :: _ :: _ :: rest =>
      simp [tripleOf, listOf, Wire.transposed, Wire.transposedAll, Except.map]
  | _ => rfl

end Fields

/-- The direction in which the texts of a mask are stored does not matter. Unless the descriptions
fill a square of two or more rows, transposing all texts of a value gives the same mask or the same
fault. -/
theorem decode_transposed {w : Wire}
    (h : ∀ m, w.descriptions? = some m → m.rows = m.cols → m.rows < 2) :
    decode w.transposed = decode w := by
  cases w with
  | doubles m => rfl
  | texts m => rfl
  | list items =>
    have hpair := pairOf_transposed .exprs (.list items)
    rw [Wire.transposed] at hpair ⊢
    unfold decode
    rw [hpair, Except.map_bind]
    refine Except.bind_congr_of_ok fun (values, fields) hitems => ?_
    dsimp only
    rw [textsOrMarker_transposed, Except.map_bind]
    refine Except.bind_congr_of_ok fun valueTexts _ => ?_
    rw [tripleOf_transposed, Except.map_bind]
    refine Except.bind_congr_of_ok fun (names, descriptions, pol) hfields => ?_
    dsimp only
    rw [textsOrMarker_transposed, Except.map_bind]
    refine Except.bind_congr_of_ok fun nameTexts _ => ?_
    cases descriptions with
    | doubles m => rfl
    | list items => rfl
    | texts m =>
      have hm : (Wire.list items).descriptions? = some m := by
        rw [pairOf_eq_ok_iff.1 hitems, tripleOf_eq_ok_iff.1 hfields]
        rfl
      cases pol with
      | doubles m => rfl
      | texts m => rfl
      | list polItems => exact assemble_transpose nameTexts valueTexts m (h m hm)

def alongRows : Wire :=
  stored (.texts (.row ["1", "2"])) (.texts (.row ["a", "b"])) (.texts (.row ["t", "x", "y"]))

theorem decode_transposed_rows :
    (∀ m, alongRows.descriptions? = some m → m.rows = m.cols → m.rows < 2) ∧
      decode alongRows.transposed = decode alongRows ∧
        decode alongRows = .ok ⟨"t", [⟨"a", "1", "x"⟩, ⟨"b", "2", "y"⟩]⟩ := by
  have hrows : ∀ m, alongRows.descriptions? = some m → m.rows = m.cols → m.rows < 2 := by
    rintro m ⟨⟩
    decide
  exact ⟨hrows, decode_transposed hrows, rfl⟩

/-- Descriptions that fill a square are read down the first column, transposed or not. -/
example :
    decode (stored (.text "1") (.text "a") (.texts twoColumns)) = .ok ⟨"t", [⟨"a", "1", "x"⟩]⟩ ∧
      decode (stored (.text "1") (.text "a") (.texts twoColumns)).transposed =
        .ok ⟨"t", [⟨"a", "1", "u"⟩]⟩ :=
  ⟨rfl, rfl⟩

end Mask

end DiagramScope
