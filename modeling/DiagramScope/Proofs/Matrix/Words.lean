import DiagramScope.Proofs.Matrix
import DiagramScope.Wire
import Mathlib.Data.Multiset.Bind

/-!
Matrices whose sizes are machine words. Main statement: however a matrix is built, the product of
its dimensions and the place of every cell are words, so that arithmetic which wraps around finds
the same cells, and transposing only moves cells and undoes itself.
-/

set_option autoImplicit false
set_option relaxedAutoImplicit false

namespace DiagramScope.Matrix

variable {α : Type}

section Order

private theorem getElem?_cells {m : Matrix α} {index : Nat} (h : index < m.cells.length) :
    m.cells[index]? = m.get? (index % m.rows) (index / m.rows) := by
  rw [m.length_cells] at h
  have hrows : 0 < m.rows := by
    apply Nat.pos_of_ne_zero
    intro hzero
    rw [hzero, Nat.zero_mul] at h
    omega
  have hrow : index % m.rows < m.rows := Nat.mod_lt index hrows
  have hcol : index / m.rows < m.cols := Nat.div_lt_of_lt_mul h
  have hplace : index / m.rows * m.rows + index % m.rows = index := Nat.div_add_mod' index m.rows
  unfold get?
  rw [if_pos ⟨hrow, hcol⟩, hplace]

private theorem ext_get? {m n : Matrix α} (hrows : m.rows = n.rows) (hcols : m.cols = n.cols)
    (hget : ∀ row col, m.get? row col = n.get? row col) : m = n := by
  have hlength : m.cells.length = n.cells.length := by
    rw [m.length_cells, n.length_cells, hrows, hcols]
  apply ext hrows hcols
  apply List.ext_getElem?
  intro index
  by_cases h : index < m.cells.length
  · rw [getElem?_cells h, getElem?_cells (hlength ▸ h), hget, hrows]
  · rw [List.getElem?_eq_none (Nat.le_of_not_lt h),
      List.getElem?_eq_none (hlength ▸ Nat.le_of_not_lt h)]

private theorem transpose_transpose (m : Matrix α) : m.transpose.transpose = m := by
  have hget : ∀ row col, m.transpose.transpose.get? row col = m.get? row col := by
    intro row col
    rw [get?_transpose, get?_transpose]
  exact ext_get? rfl rfl hget

private theorem rowMajor_eq_flatMap (m : Matrix α) :
    m.rowMajor = (List.range m.rows).flatMap m.rowCells := by
  unfold rowMajor
  split
  · next h =>
    have hcells : m.cells = [] := List.isEmpty_iff.1 h
    symm
    apply List.flatMap_eq_nil_iff.2
    intro row _
    have hrow := m.rowCells_sublist row
    rw [hcells] at hrow
    exact List.sublist_nil.1 hrow
  · rfl

private theorem cells_eq_flatMap (m : Matrix α) :
    m.cells = (List.range m.cols).flatMap fun col =>
      (List.range m.rows).filterMap fun row => m.get? row col := by
  have hcells : m.cells = m.transpose.rowMajor := congrArg cells m.transpose_transpose.symm
  have hcolumn : m.transpose.rowCells =
      fun col => (List.range m.rows).filterMap fun row => m.get? row col := by
    ext1 col
    apply List.filterMap_congr
    intro row _
    exact m.get?_transpose row col
  rw [hcells, rowMajor_eq_flatMap, hcolumn]
  rfl

/-- Transposing keeps all cells, each as often as it is there. -/
theorem cells_transpose_perm (m : Matrix α) : m.transpose.cells.Perm m.cells := by
  have hrows : m.transpose.cells = (List.range m.rows).flatMap fun row =>
      (List.range m.cols).flatMap fun col => (m.get? row col).toList := by
    have hrow : m.rowCells = fun row =>
        (List.range m.cols).flatMap fun col => (m.get? row col).toList := by
      ext1 row
      exact List.filterMap_eq_flatMap_toList ..
    exact m.rowMajor_eq_flatMap.trans (by rw [hrow])
  have hcols : m.cells = (List.range m.cols).flatMap fun col =>
      (List.range m.rows).flatMap fun row => (m.get? row col).toList := by
    simp only [← List.filterMap_eq_flatMap_toList]
    exact m.cells_eq_flatMap
  rw [hrows, hcols, ← Multiset.coe_eq_coe]
  simp only [← Multiset.coe_bind]
  exact Multiset.bind_bind _ _

end Order

section Loop

/-- All cells row after row, as a loop over the columns within a loop over the rows pushes them. A
cell that is not found is not pushed. -/
def pushedCells (m : Matrix α) : List α :=
  (List.range m.rows).foldl (fun pushed row =>
    (List.range m.cols).foldl (fun pushed col =>
      match m.get? row col with
      | some cell => pushed ++ [cell]
      | none => pushed) pushed) []

private theorem foldl_push (found : Nat → Option α) (ns : List Nat) (pushed : List α) :
    ns.foldl (fun pushed n =>
      match found n with
      | some cell => pushed ++ [cell]
      | none => pushed) pushed = pushed ++ ns.filterMap found := by
  induction ns generalizing pushed with
  | nil => exact (List.append_nil pushed).symm
  | cons n rest ih =>
    rw [List.foldl_cons, ih]
    cases h : found n with
    | none => rw [List.filterMap_cons_none h]
    | some cell => rw [List.filterMap_cons_some h, List.append_assoc, List.singleton_append]

private theorem pushedCells_eq (m : Matrix α) : m.pushedCells = m.transpose.cells := by
  unfold pushedCells
  simp only [foldl_push]
  rw [List.foldl_append_eq_append, List.nil_append, ← List.flatMap_def]
  exact m.rowMajor_eq_flatMap.symm

end Loop

section Words

/-- The cell in a row and a column, found with arithmetic on words, which wraps around. -/
def wordGet? (m : Matrix α) (row col : UInt64) : Option α :=
  if row < .ofNat m.rows ∧ col < .ofNat m.cols then
    m.cells[(col * .ofNat m.rows + row).toNat]?
  else none

structure FitsWords (m : Matrix α) : Prop where
  rows : m.rows < wordLimit
  cols : m.cols < wordLimit
  product : m.rows * m.cols < wordLimit

private theorem wordLimit_eq : wordLimit = 2 ^ 64 := rfl

private theorem toNat_word {n : Nat} (h : n < wordLimit) : (UInt64.ofNat n).toNat = n :=
  UInt64.toNat_ofNat_of_lt' h

private theorem lt_word_iff {word : UInt64} {n : Nat} (h : n < wordLimit) :
    word < .ofNat n ↔ word.toNat < n := by
  rw [UInt64.lt_iff_toNat_lt, toNat_word h]

namespace FitsWords

variable {m : Matrix α}

private theorem size_lt (h : m.FitsWords) : m.size < wordLimit := by
  have hsize : m.size = m.rows * m.cols := m.length_cells
  rw [hsize]
  exact h.product

private theorem toNat_product (h : m.FitsWords) :
    (UInt64.ofNat m.rows * UInt64.ofNat m.cols).toNat = m.size := by
  rw [UInt64.toNat_mul, toNat_word h.rows, toNat_word h.cols, m.length_cells.symm]
  exact Nat.mod_eq_of_lt h.size_lt

private theorem toNat_place (h : m.FitsWords) {row col : UInt64} (hrow : row.toNat < m.rows)
    (hcol : col.toNat < m.cols) :
    (col * .ofNat m.rows + row).toNat = col.toNat * m.rows + row.toNat := by
  have hplace : col.toNat * m.rows + row.toNat < wordLimit :=
    Nat.lt_trans (index_lt hrow hcol) h.size_lt
  have hproduct : col.toNat * m.rows < wordLimit := by omega
  rw [UInt64.toNat_add, UInt64.toNat_mul, toNat_word h.rows, ← wordLimit_eq,
    Nat.mod_eq_of_lt hproduct, Nat.mod_eq_of_lt hplace]

private theorem wordGet?_eq (h : m.FitsWords) (row col : UInt64) :
    m.wordGet? row col = m.get? row.toNat col.toNat := by
  have hrow : row < .ofNat m.rows ↔ row.toNat < m.rows := lt_word_iff h.rows
  have hcol : col < .ofNat m.cols ↔ col.toNat < m.cols := lt_word_iff h.cols
  unfold wordGet? get?
  by_cases hin : row.toNat < m.rows ∧ col.toNat < m.cols
  · rw [if_pos hin, if_pos ⟨hrow.2 hin.1, hcol.2 hin.2⟩, h.toNat_place hin.1 hin.2]
  · rw [if_neg hin, if_neg fun hwords => hin ⟨hrow.1 hwords.1, hcol.1 hwords.2⟩]

private theorem transpose (h : m.FitsWords) : m.transpose.FitsWords :=
  ⟨h.cols, h.rows, Nat.mul_comm m.rows m.cols ▸ h.product⟩

end FitsWords

/-- The matrices that can be built where sizes are words: from cells with their dimensions, which is
also how matrices are read, without cells, from the cells of a column or a row, which may be a
single one, and by transposing. A list of texts becomes a column. -/
inductive Built : Matrix α → Prop
  | ofCells {rows cols : Nat} {cells : List α} {m : Matrix α} : rows < wordLimit →
      cols < wordLimit → ofCells rows cols cells = .ok m → Built m
  | empty : Built empty
  | column {cells : List α} : cells.length < wordLimit → Built (column cells)
  | row {cells : List α} : cells.length < wordLimit → Built (row cells)
  | scalar (cell : α) : Built (scalar cell)
  | transpose {m : Matrix α} : Built m → Built m.transpose

private theorem fitsWords_of_ofCells? {rows cols : Nat} {cells : List α} {m : Matrix α}
    (hrows : rows < wordLimit) (hcols : cols < wordLimit) (h : ofCells? rows cols cells = some m) :
    m.FitsWords := by
  unfold ofCells? at h
  split at h
  · next hcells =>
    obtain rfl := Option.some.inj h
    exact ⟨hrows, hcols, hcells.2⟩
  · cases h

private theorem Built.fitsWords {m : Matrix α} (h : m.Built) : m.FitsWords := by
  have hzero : 0 < wordLimit := by decide
  have hone : 1 < wordLimit := by decide
  induction h with
  | @ofCells rows cols cells m hrows hcols hcells =>
    unfold Matrix.ofCells at hcells
    split at hcells
    · next found hfound =>
      obtain rfl := Except.ok.inj hcells
      exact fitsWords_of_ofCells? hrows hcols hfound
    · cases hcells
  | empty => exact ⟨hzero, hzero, hzero⟩
  | @column cells hcells => exact ⟨hcells, hone, (Nat.mul_one cells.length).symm ▸ hcells⟩
  | @row cells hcells => exact ⟨hone, hcells, (Nat.one_mul cells.length).symm ▸ hcells⟩
  | scalar cell => exact ⟨hone, hone, hone⟩
  | transpose _ ih => exact ih.transpose

end Words

/-- How the cells of a matrix are kept: as many as the product of the dimensions, which is a word,
each at the place of its row and column, which is a word too; and transposing moves every cell and
loses none, and done twice it changes nothing. -/
structure Represented (m : Matrix α) : Prop where
  size : m.rows * m.cols < wordLimit ∧ m.size = m.rows * m.cols
  product : (UInt64.ofNat m.rows * UInt64.ofNat m.cols).toNat = m.size
  cell : ∀ row col, (m.get? row col).isSome = true ↔ row < m.rows ∧ col < m.cols
  place : ∀ row col, row < m.rows → col < m.cols →
    col * m.rows + row < wordLimit ∧ col * m.rows + row < m.size ∧
      m.get? row col = m.cells[col * m.rows + row]?
  words : ∀ row col, m.wordGet? row col = m.get? row.toNat col.toNat
  dimensions : m.transpose.rows = m.cols ∧ m.transpose.cols = m.rows
  exchanged : ∀ row col, m.transpose.get? col row = m.get? row col
  pushed : m.transpose.cells = m.pushedCells
  kept : m.transpose.size = m.size ∧ m.transpose.cells.Perm m.cells
  twice : m.transpose.transpose = m

/-- However a matrix is built, its cells are kept in this way. -/
theorem matrices_are_represented {m : Matrix α} (h : m.Built) : m.Represented where
  size := ⟨h.fitsWords.product, m.length_cells⟩
  product := h.fitsWords.toNat_product
  cell _ _ := isSome_get?
  place row col hrow hcol := by
    have hplace : col * m.rows + row < m.size := index_lt hrow hcol
    refine ⟨Nat.lt_trans hplace h.fitsWords.size_lt, hplace, ?_⟩
    unfold get?
    exact if_pos ⟨hrow, hcol⟩
  words := h.fitsWords.wordGet?_eq
  dimensions := ⟨rfl, rfl⟩
  exchanged := m.get?_transpose
  pushed := m.pushedCells_eq.symm
  kept := ⟨m.cells_transpose_perm.length_eq, m.cells_transpose_perm⟩
  twice := m.transpose_transpose

def rowless : Matrix String := ⟨0, wordLimit - 1, [], (Nat.zero_mul _).symm⟩

def twoByThree : Matrix String := ⟨2, 3, ["a", "b", "c", "d", "e", "f"], rfl⟩

theorem matrices_are_represented_rowless_and_filled :
    (rowless.transpose.Built ∧ rowless.transpose.Represented ∧
      rowless.transpose.rows = wordLimit - 1) ∧
    (twoByThree.Built ∧ twoByThree.Represented ∧
      twoByThree.get? 1 0 = some "b" ∧ twoByThree.cells[1]? = some "b" ∧
      twoByThree.transpose.get? 0 1 = some "b" ∧ twoByThree.transpose.cells[3]? = some "b" ∧
      twoByThree.transpose.cells = ["a", "c", "e", "b", "d", "f"]) := by
  have hrowless : rowless.Built := by
    have hcells : ofCells 0 (wordLimit - 1) [] = .ok rowless := rfl
    exact .ofCells (by decide) (by decide) hcells
  have htwoByThree : twoByThree.Built := by
    have hcells : ofCells 2 3 ["a", "b", "c", "d", "e", "f"] = .ok twoByThree := rfl
    exact .ofCells (by decide) (by decide) hcells
  have hrepresented : twoByThree.Represented := matrices_are_represented htwoByThree
  have hexchanged : twoByThree.transpose.get? 0 1 = some "b" := hrepresented.exchanged 1 0
  have hplace := (matrices_are_represented htwoByThree.transpose).place 0 1 (by decide) (by decide)
  refine ⟨⟨hrowless.transpose, matrices_are_represented hrowless.transpose, rfl⟩, htwoByThree,
    hrepresented, rfl, rfl, hexchanged, hplace.2.2.symm.trans hexchanged, rfl⟩

end DiagramScope.Matrix
