import DiagramScope.Proofs.Customization.Rows
import Mathlib.Logic.Equiv.Basic

/-!
Moving the rows of a mask. Main statement: a move exchanges a row with its neighbour, or changes
nothing where there is no such pair, at every index but the greatest, at which moving down has no
result as soon as there is a row.
-/

set_option autoImplicit false
set_option relaxedAutoImplicit false

namespace DiagramScope.Customization

section Exchange

variable {α : Type} {xs ys : List α} {i j : Nat}

private theorem lt_of_exchange? (h : exchange? xs i j = some ys) :
    i < xs.length ∧ j < xs.length := by
  unfold exchange? at h
  split at h
  · next x y hx hy =>
    exact ⟨(List.getElem?_eq_some_iff.1 hx).1, (List.getElem?_eq_some_iff.1 hy).1⟩
  · cases h

private theorem getElem?_of_exchange? (h : exchange? xs i j = some ys) (k : Nat) :
    ys[k]? = xs[Equiv.swap i j k]? := by
  obtain ⟨hi, hj⟩ := lt_of_exchange? h
  rw [exchange?_of_lt hi hj] at h
  obtain rfl := Option.some.inj h
  rw [List.getElem?_set, List.getElem?_set, List.length_set, Equiv.swap_apply_def]
  by_cases hkj : k = j
  · subst hkj
    by_cases hki : k = i
    · subst hki
      simp [hi]
    · simp [hki, hi, hj]
  · by_cases hki : k = i
    · subst hki
      simp [Ne.symm hkj, hi, hj]
    · simp [hki, hkj, Ne.symm hki, Ne.symm hkj]

end Exchange

variable {c d : Customization} {index : UInt64}

/-- Whether two rows are exchanged and nothing else is different. -/
structure Swapped (c d : Customization) (i j : Nat) : Prop where
  scope : c.SameScope d
  title : d.mask.title = c.mask.title
  first : i < c.size
  second : j < c.size
  row : ∀ k, d.entries[k]? = c.entries[Equiv.swap i j k]?

private theorem swapped_of_exchange? {i j : Nat} {rows : List Mask.Entry}
    (h : exchange? c.entries i j = some rows) : c.Swapped (c.withEntries rows) i j where
  scope := ⟨rfl, rfl⟩
  title := rfl
  first := (lt_of_exchange? h).1
  second := (lt_of_exchange? h).2
  row := getElem?_of_exchange? h

section Neighbours

private theorem moveUp_of_alone (h : index = 0 ∨ c.size ≤ index.toNat) :
    c.moveUp index = some (c, false) :=
  if_pos h

private theorem exists_swapped_moveUp (hzero : index ≠ 0) (hlt : index.toNat < c.size) :
    ∃ d, c.moveUp index = some (d, true) ∧ c.Swapped d index.toNat (index.toNat - 1) := by
  have habove : index.toNat - 1 < c.entries.length := Nat.lt_of_le_of_lt (Nat.sub_le _ _) hlt
  have hrows := exchange?_of_lt hlt habove
  refine ⟨_, ?_, swapped_of_exchange? hrows⟩
  rw [moveUp, if_neg (not_or.2 ⟨hzero, Nat.not_le.2 hlt⟩), toNat_pred hzero, hrows]
  rfl

private theorem moveDown_of_alone (hindex : index ≠ greatestIndex) (h : c.size ≤ index.toNat + 1) :
    c.moveDown index = some (c, false) :=
  if_pos (toNat_succ hindex ▸ h)

private theorem exists_swapped_moveDown (hindex : index ≠ greatestIndex)
    (hlt : index.toNat + 1 < c.size) :
    ∃ d, c.moveDown index = some (d, true) ∧ c.Swapped d index.toNat (index.toNat + 1) := by
  have hrow : index.toNat < c.entries.length := Nat.lt_of_succ_lt hlt
  have hrows := exchange?_of_lt hrow hlt
  refine ⟨_, ?_, swapped_of_exchange? hrows⟩
  rw [moveDown, toNat_succ hindex, if_neg (Nat.not_le.2 hlt), hrows]
  rfl

/-- The index behind the greatest one is zero, so a row seems to be there. -/
theorem moveDown_greatestIndex (hsize : c.size ≤ greatestIndex.toNat) :
    c.moveDown greatestIndex = none ↔ c.size ≠ 0 := by
  have hnext : (greatestIndex + 1).toNat = 0 := rfl
  have hrow : c.entries[greatestIndex.toNat]? = none := List.getElem?_eq_none hsize
  rw [moveDown, hnext, exchange?, hrow]
  by_cases hempty : c.size = 0
  · simp [hempty]
  · simp [hempty]

private theorem Swapped.eq_of_swapped {e : Customization} {i j : Nat} (hd : c.Swapped d i j)
    (he : d.Swapped e j i) : e = c := by
  have hrows : e.entries = c.entries := by
    refine List.ext_getElem? fun k => ?_
    rw [he.row, hd.row, Equiv.swap_comm j i, Equiv.swap_apply_self]
  have htitle : e.mask.title = c.mask.title := he.title.trans hd.title
  obtain ⟨hnode, hcontext⟩ := hd.scope.trans he.scope
  obtain ⟨_, ⟨_, _⟩, _⟩ := c
  obtain ⟨_, ⟨_, _⟩, _⟩ := e
  cases hnode
  cases hcontext
  cases htitle
  cases hrows
  rfl

/-- Moving the row back up undoes that it was moved down. -/
theorem moveUp_of_moveDown (hindex : index ≠ greatestIndex)
    (h : c.moveDown index = some (d, true)) : d.moveUp (index + 1) = some (c, true) := by
  have hlt : index.toNat + 1 < c.size := by
    by_contra hle
    rw [moveDown_of_alone hindex (Nat.not_lt.1 hle)] at h
    cases h
  obtain ⟨d', hdown, hswapped⟩ := exists_swapped_moveDown hindex hlt
  obtain rfl : d' = d := congrArg Prod.fst (Option.some.inj (hdown.symm.trans h))
  have hnext : (index + 1).toNat = index.toNat + 1 := toNat_succ hindex
  have hzero : index + 1 ≠ 0 := by
    intro heq
    rw [heq] at hnext
    exact absurd hnext (Nat.succ_ne_zero _).symm
  have hrow : (index + 1).toNat < d'.size := by
    have hsize : d'.size = c.size := (moved_of_moveDown h).perm.length_eq
    rwa [hnext, hsize]
  obtain ⟨e, hup, hback⟩ := exists_swapped_moveUp hzero hrow
  rw [hnext, Nat.add_sub_cancel] at hback
  exact hswapped.eq_of_swapped hback ▸ hup

end Neighbours

def Edit.IsMove : Edit → Prop
  | .moveUp _ | .moveDown _ => True
  | _ => False

private theorem moved_of_isMove {edit : Edit} (hmove : edit.IsMove) (h : c.edit? edit = some d) :
    c.Moved d := by
  cases edit with
  | moveUp index =>
    obtain ⟨⟨_, flag⟩, hup, rfl⟩ := Option.map_eq_some_iff.1 h
    exact moved_of_moveUp hup
  | moveDown index =>
    obtain ⟨⟨_, flag⟩, hdown, rfl⟩ := Option.map_eq_some_iff.1 h
    exact moved_of_moveDown hdown
  | insertRow | removeRow _ | setRowCount _ | setTitle _ | setEntry _ _ => exact hmove.elim

private theorem perm_of_moves {moves : List Edit} (hmoves : ∀ move ∈ moves, move.IsMove)
    (h : c.editAll? moves = some d) : d.entries.Perm c.entries := by
  refine preserves_editAll? (P := fun d => d.entries.Perm c.entries) ?_ h (.refl _)
  intro move hmem before after hmove hperm
  exact (moved_of_isMove (hmoves move hmem) hmove).perm.trans hperm

/-- What moves do to the rows of a mask. Moving up always has a result. Moving down has one at every
index but the greatest; there it has none if there is a row at all. If the row and its neighbour are
there, these two are exchanged and the flag is set; otherwise the flag is not set and nothing
changes. Moves one after the other permute the rows, and moving a row back up undoes that it was
moved down. -/
structure MovesPermute (c : Customization) : Prop where
  up : ∀ index, index ≠ 0 ∧ index.toNat < c.size →
    ∃ d, c.moveUp index = some (d, true) ∧ c.Swapped d index.toNat (index.toNat - 1)
  top : ∀ index, index = 0 ∨ c.size ≤ index.toNat → c.moveUp index = some (c, false)
  down : ∀ index, index ≠ greatestIndex → index.toNat + 1 < c.size →
    ∃ d, c.moveDown index = some (d, true) ∧ c.Swapped d index.toNat (index.toNat + 1)
  bottom : ∀ index, index ≠ greatestIndex → c.size ≤ index.toNat + 1 →
    c.moveDown index = some (c, false)
  greatest : c.size ≤ greatestIndex.toNat → (c.moveDown greatestIndex = none ↔ c.size ≠ 0)
  made : ∀ moves, .moveDown greatestIndex ∉ moves → ∃ d, c.editAll? moves = some d
  permuted : ∀ moves d, (∀ move ∈ moves, move.IsMove) → c.editAll? moves = some d →
    c.SameScope d ∧ d.entries.Perm c.entries
  undone : ∀ index d, index ≠ greatestIndex → c.moveDown index = some (d, true) →
    d.moveUp (index + 1) = some (c, true)

/-- Moves exchange neighbours, in every state of a mask. -/
theorem moves_permute (c : Customization) : MovesPermute c where
  up _ h := exists_swapped_moveUp h.1 h.2
  top _ h := moveUp_of_alone h
  down _ hindex h := exists_swapped_moveDown hindex h
  bottom _ hindex h := moveDown_of_alone hindex h
  greatest := moveDown_greatestIndex
  made _ h := c.exists_editAll? h
  permuted _ _ hmoves h := ⟨sameScope_of_editAll? h, perm_of_moves hmoves h⟩
  undone _ _ hindex h := moveUp_of_moveDown hindex h

/-- A single row has none below, but moving it down from the greatest index has no result. -/
theorem moveDown_past_single_row :
    moveDown ⟨.block 1, ⟨"Gains", [⟨"k", "1", ""⟩]⟩, .ofList []⟩ greatestIndex = none := by
  rfl

end DiagramScope.Customization
