import DiagramScope.Mask.Codec

/-!
Stored masks are read as they were written. Main statement: decoding the stored form of a mask gives
the mask.
-/

set_option autoImplicit false
set_option relaxedAutoImplicit false

namespace DiagramScope

private theorem Matrix.get?_column {α : Type} (cells : List α) (index : Nat) :
    (Matrix.column cells).get? index 0 = cells[index]? := by
  unfold Matrix.get? Matrix.column
  simp only [Nat.zero_mul, Nat.zero_add, Nat.zero_lt_one, and_true]
  split
  · rfl
  · next h => exact (List.getElem?_eq_none (Nat.le_of_not_lt h)).symm

namespace Mask

variable (title : String) (entries : List Entry)

private theorem entryAt_columns {index : Nat} (h : index < entries.length) :
    entryAt .column (some (.column (entries.map Entry.name)))
        (some (.column (entries.map Entry.value)))
        (.column (title :: entries.map Entry.description)) index =
      .ok entries[index] := by
  have hname : cellOf .names .column (some (.column (entries.map Entry.name))) index =
      .ok entries[index].name := by
    simp [cellOf, Orientation.cell?, Matrix.get?_column, h]
  have hvalue : cellOf .values .column (some (.column (entries.map Entry.value))) index =
      .ok entries[index].value := by
    simp [cellOf, Orientation.cell?, Matrix.get?_column, h]
  have hdescription : cellOf .descriptions .column
      (some (.column (title :: entries.map Entry.description))) (index + 1) =
        .ok entries[index].description := by
    simp [cellOf, Orientation.cell?, Matrix.get?_column, h]
  unfold entryAt
  rw [hname, hvalue, hdescription]
  rfl

private theorem entriesFrom_columns (count index : Nat) (h : index + count = entries.length) :
    entriesFrom .column (some (.column (entries.map Entry.name)))
        (some (.column (entries.map Entry.value)))
        (.column (title :: entries.map Entry.description)) count index =
      .ok (entries.drop index) := by
  induction count generalizing index with
  | zero =>
    have hnone : entries.drop index = [] := List.drop_eq_nil_of_le (by omega)
    rw [hnone]
    rfl
  | succ count ih =>
    have hlt : index < entries.length := by omega
    have hmore := ih (index + 1) (by omega)
    unfold entriesFrom
    rw [entryAt_columns title entries hlt, hmore, List.drop_eq_getElem_cons hlt]
    rfl

/-- Reading a stored mask undoes storing it. -/
theorem decode_encode (m : Mask) : decode (encode m) = .ok m := by
  obtain ⟨title, entries⟩ := m
  cases entries with
  | nil => rfl
  | cons first rest =>
    have hentries := entriesFrom_columns title (first :: rest) (first :: rest).length 0
      (Nat.zero_add _)
    have horientation : Orientation.ofDescriptions
        (.column (title :: (first :: rest).map Entry.description)) = .column := by
      unfold Orientation.ofDescriptions
      exact if_pos (Nat.le_add_left 1 _)
    have hassemble : assemble (some (.column ((first :: rest).map Entry.name)))
        (some (.column ((first :: rest).map Entry.value)))
        (.column (title :: (first :: rest).map Entry.description)) =
          .ok ⟨title, first :: rest⟩ := by
      have hlength : Orientation.length
          (.column (title :: (first :: rest).map Entry.description)) .column - 1 =
            (first :: rest).length := by
        simp [Orientation.length, Matrix.column]
      unfold assemble
      rw [horientation]
      simp only [Orientation.cell?, Matrix.get?_column, List.getElem?_cons_zero]
      rw [hlength, hentries]
      rfl
    change assemble _ _ _ = _
    exact hassemble

end Mask

end DiagramScope
