import DiagramScope.Proofs.Customization.Editing
import DiagramScope.Proofs.Customization.Insertion

/-!
The rows of a mask while it is edited. Main statement: a new row is the first that its context
offers, and rows that are inserted, removed and moved keep different names.
-/

set_option autoImplicit false
set_option relaxedAutoImplicit false

namespace DiagramScope.Customization

section Exchange

variable {α : Type} {xs ys : List α} {i j : Nat}

theorem exchange?_of_lt (hi : i < xs.length) (hj : j < xs.length) :
    exchange? xs i j = some ((xs.set i xs[j]).set j xs[i]) := by
  unfold exchange?
  rw [List.getElem?_eq_getElem hi, List.getElem?_eq_getElem hj]

private theorem perm_of_exchange? (h : exchange? xs i j = some ys) : ys.Perm xs := by
  unfold exchange? at h
  split at h
  · next x y hx hy =>
    obtain ⟨hi, rfl⟩ := List.getElem?_eq_some_iff.1 hx
    obtain ⟨hj, rfl⟩ := List.getElem?_eq_some_iff.1 hy
    obtain rfl := Option.some.inj h
    exact List.set_set_perm hi hj
  · cases h

end Exchange

variable {c d : Customization}

def Distinct (c : Customization) : Prop := c.mask.names.Nodup

section Distinct

private theorem Distinct.of_perm (hc : c.Distinct) (h : d.entries.Perm c.entries) : d.Distinct :=
  (h.map Mask.Entry.name).nodup_iff.2 hc

private theorem Distinct.of_sublist (hc : c.Distinct) (h : d.entries.Sublist c.entries) :
    d.Distinct :=
  hc.sublist (h.map Mask.Entry.name)

private theorem Distinct.insertRow (hc : c.Distinct) : c.insertRow.Distinct := by
  obtain ⟨row, hnew, hrow⟩ := c.exists_newRow
  have hnames : (c.withEntries (c.entries ++ [row])).mask.names = c.mask.names ++ [row.name] := by
    simp [withEntries, Mask.names, entries]
  unfold Distinct
  rw [hrow, hnames, List.nodup_append]
  refine ⟨hc, List.nodup_singleton _, ?_⟩
  rintro name hname _ hrowName rfl
  obtain rfl := List.mem_singleton.1 hrowName
  exact hnew.fresh hname

private theorem Distinct.insertRows (hc : c.Distinct) (count : Nat) :
    (c.insertRows count).Distinct := by
  induction count generalizing c with
  | zero => exact hc
  | succ count ih => exact ih hc.insertRow

theorem Moved.perm (h : c.Moved d) : d.entries.Perm c.entries := by
  cases h with
  | stays => exact .refl _
  | exchanges hrows => exact perm_of_exchange? hrows

/-- A change that replaces no row keeps the names different. -/
theorem Distinct.edit? (hc : c.Distinct) {edit : Edit}
    (hedit : ∀ index entry, edit ≠ .setEntry index entry) (h : c.edit? edit = some d) :
    d.Distinct := by
  cases edit with
  | insertRow =>
    cases h
    exact hc.insertRow
  | removeRow selected =>
    cases h
    exact hc.of_sublist (List.eraseIdx_sublist _ _)
  | moveUp index =>
    obtain ⟨⟨_, moved⟩, hmove, rfl⟩ := Option.map_eq_some_iff.1 h
    exact hc.of_perm (moved_of_moveUp hmove).perm
  | moveDown index =>
    obtain ⟨⟨_, moved⟩, hmove, rfl⟩ := Option.map_eq_some_iff.1 h
    exact hc.of_perm (moved_of_moveDown hmove).perm
  | setRowCount count =>
    cases h
    exact (hc.insertRows (count - c.size)).of_sublist (List.take_sublist _ _)
  | setTitle title =>
    cases h
    exact hc
  | setEntry index entry => exact absurd rfl (hedit index entry)

private theorem Distinct.editAll? (hc : c.Distinct) {edits : List Edit}
    (hedits : ∀ index entry, .setEntry index entry ∉ edits) (h : c.editAll? edits = some d) :
    d.Distinct := by
  refine preserves_editAll? (fun edit hmem c d hedit hbefore => ?_) h hc
  have hkeeps : ∀ index entry, edit ≠ .setEntry index entry := by
    rintro index entry rfl
    exact hedits index entry hmem
  exact hbefore.edit? hkeeps hedit

end Distinct

section Returns

theorem toNat_pred {index : UInt64} (h : index ≠ 0) : (index - 1).toNat = index.toNat - 1 := by
  have hpos : index.toNat ≠ 0 := fun hzero => h (UInt64.toNat_inj.1 hzero)
  have hword := index.toNat_lt
  rw [UInt64.toNat_sub, UInt64.toNat_one]
  omega

/-- The greatest index. The index behind it is zero. -/
def greatestIndex : UInt64 := 0xFFFFFFFFFFFFFFFF

theorem toNat_succ {index : UInt64} (h : index ≠ greatestIndex) :
    (index + 1).toNat = index.toNat + 1 := by
  have hgreatest : index.toNat ≠ greatestIndex.toNat := fun heq => h (UInt64.toNat_inj.1 heq)
  have hword := index.toNat_lt
  have hvalue : greatestIndex.toNat = 2 ^ 64 - 1 := rfl
  rw [UInt64.toNat_add, UInt64.toNat_one]
  omega

private theorem exists_moveUp (c : Customization) (index : UInt64) :
    ∃ d moved, c.moveUp index = some (d, moved) := by
  unfold moveUp
  split
  · exact ⟨c, false, rfl⟩
  · next h =>
    obtain ⟨hne, hlt⟩ := not_or.1 h
    have hindex : index.toNat < c.entries.length := Nat.lt_of_not_le hlt
    have habove : (index - 1).toNat < c.entries.length := by
      rw [toNat_pred hne]
      omega
    rw [exchange?_of_lt hindex habove]
    exact ⟨_, true, rfl⟩

private theorem exists_moveDown (c : Customization) {index : UInt64} (h : index ≠ greatestIndex) :
    ∃ d moved, c.moveDown index = some (d, moved) := by
  have hbelow : (index + 1).toNat = index.toNat + 1 := toNat_succ h
  unfold moveDown
  split
  · exact ⟨c, false, rfl⟩
  · next hlt =>
    have hnext : (index + 1).toNat < c.entries.length := Nat.lt_of_not_le hlt
    have hindex : index.toNat < c.entries.length := by omega
    rw [exchange?_of_lt hindex hnext]
    exact ⟨_, true, rfl⟩

/-- Every change is made, unless it asks for the row behind the greatest index. -/
theorem exists_edit? (c : Customization) {edit : Edit} (h : edit ≠ .moveDown greatestIndex) :
    ∃ d, c.edit? edit = some d := by
  cases edit with
  | insertRow => exact ⟨_, rfl⟩
  | removeRow selected => exact ⟨_, rfl⟩
  | moveUp index =>
    obtain ⟨d, moved, hmove⟩ := c.exists_moveUp index
    exact ⟨d, congrArg (Option.map Prod.fst) hmove⟩
  | moveDown index =>
    have hindex : index ≠ greatestIndex := fun heq => h (heq ▸ rfl)
    obtain ⟨d, moved, hmove⟩ := c.exists_moveDown hindex
    exact ⟨d, congrArg (Option.map Prod.fst) hmove⟩
  | setRowCount count => exact ⟨_, rfl⟩
  | setTitle title => exact ⟨_, rfl⟩
  | setEntry index entry =>
    simp only [edit?]
    split
    · exact ⟨_, rfl⟩
    · exact ⟨_, rfl⟩

theorem exists_editAll? (c : Customization) {edits : List Edit}
    (h : .moveDown greatestIndex ∉ edits) : ∃ d, c.editAll? edits = some d := by
  induction edits generalizing c with
  | nil => exact ⟨c, rfl⟩
  | cons edit edits ih =>
    rw [List.mem_cons, not_or] at h
    obtain ⟨changed, hedit⟩ := c.exists_edit? (Ne.symm h.1)
    obtain ⟨d, hrest⟩ := ih changed h.2
    exact ⟨d, Option.bind_eq_some_iff.2 ⟨changed, hedit, hrest⟩⟩

end Returns

section Count

private theorem exists_entries_insertRows (c : Customization) (count : Nat) :
    ∃ more, more.length = count ∧ (c.insertRows count).entries = c.entries ++ more := by
  induction count generalizing c with
  | zero => exact ⟨[], rfl, (List.append_nil _).symm⟩
  | succ count ih =>
    obtain ⟨row, -, hrow⟩ := c.exists_newRow
    obtain ⟨more, hlength, hmore⟩ := ih c.insertRow
    refine ⟨row :: more, congrArg (· + 1) hlength, ?_⟩
    rw [insertRows, hmore, hrow]
    exact List.append_assoc c.entries [row] more

private theorem entries_setRowCount (c : Customization) (count : Nat) :
    ∃ more, more.length = count - c.size ∧
      (c.setRowCount count).entries = (c.entries ++ more).take count := by
  obtain ⟨more, hlength, hmore⟩ := c.exists_entries_insertRows (count - c.size)
  exact ⟨more, hlength, congrArg (List.take count) hmore⟩

private theorem size_setRowCount (c : Customization) (count : Nat) :
    (c.setRowCount count).size = count := by
  obtain ⟨more, hlength, hmore⟩ := c.entries_setRowCount count
  unfold size at hlength ⊢
  rw [hmore, List.length_take, List.length_append]
  omega

private theorem take_setRowCount (c : Customization) (count : Nat) :
    (c.setRowCount count).entries.take (min count c.size) =
      c.entries.take (min count c.size) := by
  obtain ⟨more, -, hmore⟩ := c.entries_setRowCount count
  rw [hmore, List.take_take, Nat.min_eq_left (Nat.min_le_left _ _)]
  exact List.take_append_of_le_length (Nat.min_le_right _ _)

end Count

/-- What happens to the rows of a mask: insertion appends one new row; rows with different names
keep them whatever is inserted, removed and moved; every such change is made, but for moving down
from the greatest index; and setting the number of rows gives that number and keeps the first
rows. -/
structure RowsStayApart (c : Customization) : Prop where
  inserted : ∃ row, c.NewRow row ∧ c.insertRow = c.withEntries (c.entries ++ [row])
  distinct : ∀ edits d, (∀ index entry, .setEntry index entry ∉ edits) →
    c.editAll? edits = some d → c.Distinct → d.Distinct
  made : ∀ edits, .moveDown greatestIndex ∉ edits → ∃ d, c.editAll? edits = some d
  size : ∀ count, (c.setRowCount count).size = count
  kept : ∀ count, (c.setRowCount count).entries.take (min count c.size) =
    c.entries.take (min count c.size)

/-- Rows are inserted under names that no row has, in every state of a mask. -/
theorem rows_stay_apart (c : Customization) : RowsStayApart c where
  inserted := c.exists_newRow
  distinct _ _ hedits h hc := hc.editAll? hedits h
  made _ h := c.exists_editAll? h
  size count := c.size_setRowCount count
  kept count := c.take_setRowCount count

end DiagramScope.Customization
