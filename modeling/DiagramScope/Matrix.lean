/-!
Dense matrices with their cells in column-major order. Dimensions and cells agree by construction.
Main statement: transposing exchanges rows and columns of every cell.
-/

set_option autoImplicit false
set_option relaxedAutoImplicit false

namespace DiagramScope

/-- Two to the 64th. Machine words stay below this, the number of cells of a matrix among them. -/
def wordLimit : Nat := 0x10000000000000000

/-- A matrix. Column `c` holds the cells from `c * rows` on. -/
structure Matrix (α : Type) where
  rows : Nat
  cols : Nat
  cells : List α
  length_cells : cells.length = rows * cols

namespace Matrix

variable {α : Type}

@[ext]
theorem ext {m n : Matrix α} (hr : m.rows = n.rows) (hc : m.cols = n.cols)
    (h : m.cells = n.cells) : m = n := by
  cases m
  cases n
  simp_all

/-- The matrix of the given dimensions and cells, if they agree and their product is a word. -/
def ofCells? (rows cols : Nat) (cells : List α) : Option (Matrix α) :=
  if h : cells.length = rows * cols ∧ rows * cols < wordLimit then some ⟨rows, cols, cells, h.1⟩
  else none

def empty : Matrix α := ⟨0, 0, [], rfl⟩

def column (cells : List α) : Matrix α := ⟨cells.length, 1, cells, (Nat.mul_one _).symm⟩

def row (cells : List α) : Matrix α := ⟨1, cells.length, cells, (Nat.one_mul _).symm⟩

def scalar (cell : α) : Matrix α := row [cell]

instance : Inhabited (Matrix α) := ⟨empty⟩

def size (m : Matrix α) : Nat := m.cells.length

def isEmpty (m : Matrix α) : Bool := m.cells.isEmpty

/-- The cell in a row and a column, both counted from zero. -/
def get? (m : Matrix α) (row col : Nat) : Option α :=
  if row < m.rows ∧ col < m.cols then m.cells[col * m.rows + row]? else none

theorem index_lt {m : Matrix α} {row col : Nat} (hr : row < m.rows) (hc : col < m.cols) :
    col * m.rows + row < m.cells.length := by
  rw [m.length_cells]
  calc col * m.rows + row < col * m.rows + m.rows := Nat.add_lt_add_left hr _
    _ = (col + 1) * m.rows := by rw [Nat.add_mul, Nat.one_mul]
    _ ≤ m.cols * m.rows := Nat.mul_le_mul_right _ hc
    _ = m.rows * m.cols := Nat.mul_comm _ _

theorem isSome_get? {m : Matrix α} {row col : Nat} :
    (m.get? row col).isSome = true ↔ row < m.rows ∧ col < m.cols := by
  unfold get?
  split
  · next h => simp [h, index_lt h.1 h.2]
  · next h => simp [h]

def rowCells (m : Matrix α) (row : Nat) : List α := (List.range m.cols).filterMap (m.get? row)

private theorem length_filterMap_of_isSome {β : Type} (f : Nat → Option β) (ns : List Nat)
    (h : ∀ n ∈ ns, (f n).isSome = true) : (ns.filterMap f).length = ns.length := by
  induction ns with
  | nil => rfl
  | cons n rest ih =>
    obtain ⟨b, hb⟩ := Option.isSome_iff_exists.1 (h n (by simp))
    simp [hb, ih fun k hk => h k (List.mem_cons_of_mem n hk)]

theorem length_rowCells {m : Matrix α} {row : Nat} (h : row < m.rows) :
    (m.rowCells row).length = m.cols := by
  rw [rowCells, length_filterMap_of_isSome _ _ (fun c hc => isSome_get?.2 ⟨h, List.mem_range.1 hc⟩),
    List.length_range]

/-- All cells, row after row. A matrix without cells has none, whatever its dimensions are. -/
def rowMajor (m : Matrix α) : List α :=
  if m.cells.isEmpty then [] else (List.range m.rows).flatMap m.rowCells

private theorem length_flatMap_rowCells (m : Matrix α) (rs : List Nat)
    (h : ∀ r ∈ rs, r < m.rows) : (rs.flatMap m.rowCells).length = rs.length * m.cols := by
  induction rs with
  | nil => simp
  | cons r rest ih =>
    have hrest := ih fun k hk => h k (List.mem_cons_of_mem r hk)
    have hr := length_rowCells (h r (by simp))
    simp only [List.flatMap_cons, List.length_append, hr, hrest, List.length_cons, Nat.succ_mul]
    omega

theorem length_rowMajor (m : Matrix α) : m.rowMajor.length = m.cols * m.rows := by
  unfold rowMajor
  split
  · next h =>
    have hlen : m.cells.length = 0 := by simpa using h
    rw [m.length_cells] at hlen
    simp [Nat.mul_comm m.cols, hlen]
  · rw [length_flatMap_rowCells m _ (fun r hr => List.mem_range.1 hr), List.length_range,
      Nat.mul_comm]

def transpose (m : Matrix α) : Matrix α := ⟨m.cols, m.rows, m.rowMajor, m.length_rowMajor⟩

end Matrix

end DiagramScope
