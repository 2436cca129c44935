import DiagramScope.Matrix
import Mathlib.Data.List.Basic

/-!
Where the cells of a matrix stand. Main statements: the cells of a row stand among all cells in
their order, and transposing exchanges the row and the column of every cell.
-/

set_option autoImplicit false
set_option relaxedAutoImplicit false

namespace DiagramScope.Matrix

variable {α : Type}

section Rows

private theorem rowCells_of_lt {m : Matrix α} {row : Nat} (h : row < m.rows) :
    m.rowCells row =
      (List.finRange m.cols).map fun col : Fin m.cols =>
        m.cells.get ⟨col * m.rows + row, index_lt h col.2⟩ := by
  have hcell : ∀ col : Fin m.cols,
      m.get? row col = some (m.cells.get ⟨col * m.rows + row, index_lt h col.2⟩) := by
    intro col
    unfold get?
    rw [if_pos ⟨h, col.2⟩]
    exact List.getElem?_eq_getElem (index_lt h col.2)
  unfold rowCells
  rw [← List.map_coe_finRange_eq_range, List.filterMap_map, ← List.filterMap_eq_map]
  exact List.filterMap_congr fun col _ => hcell col

theorem rowCells_of_le {m : Matrix α} {row : Nat} (h : m.rows ≤ row) : m.rowCells row = [] := by
  refine List.filterMap_eq_nil_iff.2 fun col _ => ?_
  unfold get?
  exact if_neg fun hr => Nat.not_le_of_lt hr.1 h

theorem getElem?_rowCells (m : Matrix α) (row index : Nat) :
    (m.rowCells row)[index]? = m.get? row index := by
  by_cases hrow : row < m.rows
  · rw [rowCells_of_lt hrow]
    by_cases hindex : index < m.cols
    · simp [get?, hrow, hindex, index_lt hrow hindex]
    · simp [get?, hindex]
  · rw [rowCells_of_le (Nat.le_of_not_lt hrow)]
    simp [get?, hrow]

theorem rowCells_sublist (m : Matrix α) (row : Nat) : (m.rowCells row).Sublist m.cells := by
  by_cases hrow : row < m.rows
  · rw [rowCells_of_lt hrow]
    have hpairwise : ((List.finRange m.cols).map fun col : Fin m.cols =>
        (⟨col * m.rows + row, index_lt hrow col.2⟩ : Fin m.cells.length)).Pairwise (· < ·) := by
      rw [List.pairwise_map]
      refine (List.pairwise_lt_finRange m.cols).imp fun {a b} hab => ?_
      have hstep : a.1 * m.rows < b.1 * m.rows := Nat.mul_lt_mul_of_pos_right hab (by omega)
      exact Nat.add_lt_add_right hstep row
    have hsublist := List.map_getElem_sublist hpairwise
    rw [List.map_map] at hsublist
    exact hsublist
  · rw [rowCells_of_le (Nat.le_of_not_lt hrow)]
    exact List.nil_sublist _

end Rows

section Transpose

private theorem getElem?_flatMap_of_length {f : Nat → List α} {width : Nat} {ns : List Nat}
    (h : ∀ n ∈ ns, (f n).length = width) (block : Nat) {place : Nat} (hplace : place < width) :
    (ns.flatMap f)[block * width + place]? = ns[block]?.bind fun n => (f n)[place]? := by
  induction ns generalizing block with
  | nil => rfl
  | cons n rest ih =>
    obtain ⟨hfirst, hrest⟩ := List.forall_mem_cons.1 h
    rw [List.flatMap_cons]
    cases block with
    | zero =>
      rw [Nat.zero_mul, Nat.zero_add, List.getElem?_append_left (hfirst.symm ▸ hplace)]
      rfl
    | succ block =>
      have hindex : (block + 1) * width + place = width + (block * width + place) := by
        rw [Nat.succ_mul]
        omega
      rw [hindex, List.getElem?_append_right (hfirst ▸ Nat.le_add_right _ _), hfirst,
        Nat.add_sub_cancel_left]
      exact ih hrest block

private theorem getElem?_rowMajor {m : Matrix α} {row col : Nat} (hrow : row < m.rows)
    (hcol : col < m.cols) : m.rowMajor[row * m.cols + col]? = m.get? row col := by
  have hcells : m.cells ≠ [] :=
    List.length_pos_iff.1 (Nat.lt_of_le_of_lt (Nat.zero_le _) (index_lt hrow hcol))
  have hlength : ∀ n ∈ List.range m.rows, (m.rowCells n).length = m.cols :=
    fun n hn => length_rowCells (List.mem_range.1 hn)
  unfold rowMajor
  rw [if_neg (by simpa using hcells), getElem?_flatMap_of_length hlength row hcol,
    List.getElem?_range hrow]
  exact m.getElem?_rowCells row col

/-- Transposing exchanges the row and the column of every cell. -/
theorem get?_transpose (m : Matrix α) (row col : Nat) :
    m.transpose.get? col row = m.get? row col := by
  by_cases hrow : row < m.rows
  · by_cases hcol : col < m.cols
    · have hcell : m.transpose.get? col row = m.rowMajor[row * m.cols + col]? :=
        if_pos ⟨hcol, hrow⟩
      rw [hcell, getElem?_rowMajor hrow hcol]
    · simp [get?, transpose, hcol]
  · simp [get?, transpose, hrow]

end Transpose

end DiagramScope.Matrix
