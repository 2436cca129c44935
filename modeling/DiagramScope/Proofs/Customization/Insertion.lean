import DiagramScope.Customization
import DiagramScope.Proofs.OrderedMap
import Mathlib.Data.List.Nodup
import Mathlib.Data.List.Perm.Subperm
import Mathlib.Order.Bounds.Defs

/-!
Which rows are inserted. Main statement: inserting rows appends a row for each variable in scope
that no row shows yet, in their order, and then rows for the empty matrix under names that are free.
-/

set_option autoImplicit false
set_option relaxedAutoImplicit false

namespace DiagramScope.Customization

open Script (Value)

variable (c : Customization)

/-- The variables in scope that no row shows. -/
def offered : List (String × Value) := c.context.entries.filter fun e => !c.isShown e.1

def copied (count : Nat) : List (String × Value) := c.offered.take count

def rowOf (e : String × Value) : Mask.Entry := ⟨e.1, e.2.display, "Generated variable " ++ e.1⟩

def generated (numbers : List Nat) : List (String × Value) :=
  numbers.map fun n => (generatedName n, .empty)

section FreshName

theorem toList_generatedName (n : Nat) :
    (generatedName n).toList = 'g' :: ("eneratedVar".toList ++ Nat.toDigits 10 n) := by
  have hdigits : (toString n).toList = Nat.toDigits 10 n := by
    rw [Nat.toString_eq_repr, Nat.toList_repr]
  unfold generatedName
  rw [String.toList_append, hdigits]
  rfl

theorem generatedName_injective {m n : Nat} (h : generatedName m = generatedName n) : m = n := by
  have hlist := congrArg String.toList h
  rw [toList_generatedName, toList_generatedName] at hlist
  have hdigits : Nat.toDigits 10 m = Nat.toDigits 10 n :=
    List.append_cancel_left (List.cons.inj hlist).2
  have hnumber := congrArg (Nat.ofDigitChars 10 · 0) hdigits
  simpa only [Nat.ofDigitChars_ten_toDigits] using hnumber

theorem isFree_iff {name : String} :
    c.isFree name = true ↔ name ∉ c.context.keys ∧ name ∉ c.mask.names := by
  unfold isFree isShown
  rw [Bool.and_eq_true, Bool.not_eq_true', Bool.not_eq_true', ← OrderedMap.contains_iff_mem_keys,
    Bool.not_eq_true, List.contains_eq_mem, decide_eq_false_iff_not]

/-- Among one more candidates than names in use one is free. -/
theorem exists_isFree : ∃ n, n ≤ c.context.size + c.size ∧ c.isFree (generatedName n) = true := by
  by_contra hnone
  push Not at hnone
  have hused : ((List.range (c.context.size + c.size + 1)).map generatedName) ⊆
      c.context.keys ++ c.mask.names := by
    intro name hname
    obtain ⟨n, hn, rfl⟩ := List.mem_map.1 hname
    have hbusy := hnone n (Nat.le_of_lt_succ (List.mem_range.1 hn))
    rw [ne_eq, isFree_iff, not_and_or, not_not, not_not] at hbusy
    exact List.mem_append.2 hbusy
  have hnodup : ((List.range (c.context.size + c.size + 1)).map generatedName).Nodup :=
    List.nodup_range.map fun m n h => generatedName_injective h
  have hlength := (hnodup.subperm hused).length_le
  have hkeys : c.context.keys.length = c.context.size := List.length_map _
  have hnames : c.mask.names.length = c.size := List.length_map _
  rw [List.length_map, List.length_range, List.length_append, hkeys, hnames] at hlength
  omega

structure FirstFree (n : Nat) : Prop where
  free : c.isFree (generatedName n) = true
  least : ∀ m, m < n → c.isFree (generatedName m) = false

private theorem freshName_spec :
    ∃ n, n ≤ c.context.size + c.size ∧ c.FirstFree n ∧ c.freshName = generatedName n := by
  obtain ⟨k, hk, hfree⟩ := c.exists_isFree
  unfold freshName
  rw [List.find?_map]
  cases hfound : (List.range (c.context.size + c.size + 1)).find? (c.isFree ∘ generatedName) with
  | none =>
    have hmem := List.mem_range.2 (Nat.lt_succ_of_le hk)
    exact absurd hfree (List.find?_eq_none.1 hfound k hmem)
  | some n =>
    obtain ⟨hn, hmem, hleast⟩ := List.find?_range_eq_some.1 hfound
    refine ⟨n, Nat.le_of_lt_succ (List.mem_range.1 hmem), ⟨hn, fun m hm => ?_⟩, rfl⟩
    exact (Bool.not_eq_true' _).mp (hleast m hm)

end FreshName

section InsertRow

variable {c}

private theorem insertRow_of_offered_cons {e : String × Value} {rest : List (String × Value)}
    (h : c.offered = e :: rest) : c.insertRow = c.withEntries (c.entries ++ [rowOf e]) := by
  have hfind : c.context.entries.find? (fun e => !c.isShown e.1) = some e := by
    rw [← List.head?_filter]
    exact congrArg List.head? h
  unfold insertRow nextEntry nextVariable
  rw [hfind]
  rfl

private theorem insertRow_of_offered_nil (h : c.offered = []) :
    ∃ n, n ≤ c.context.size + c.size ∧ c.FirstFree n ∧
      c.insertRow = c.withEntries (c.entries ++ [rowOf (generatedName n, .empty)]) := by
  have hfind : c.context.entries.find? (fun e => !c.isShown e.1) = none := by
    rw [← List.head?_filter]
    exact congrArg List.head? h
  obtain ⟨n, hn, hfree, hname⟩ := c.freshName_spec
  refine ⟨n, hn, hfree, ?_⟩
  unfold insertRow nextEntry nextVariable
  rw [hfind, ← hname]
  rfl

private theorem isShown_iff {name : String} : c.isShown name = true ↔ name ∈ c.mask.names :=
  List.contains_iff_mem

/-- The next new row: of the first variable in scope that no row shows, or, if all are shown, for
the empty matrix under the first generated name that neither a variable nor a row has, which is one
of the first candidates. -/
inductive NewRow (c : Customization) : Mask.Entry → Prop where
  | offered {before after : List (String × Value)} {e : String × Value}
      (hcontext : c.context.entries = before ++ e :: after)
      (hbefore : ∀ e ∈ before, e.1 ∈ c.mask.names) (he : e.1 ∉ c.mask.names) : NewRow c (rowOf e)
  | generated {n : Nat} (hall : ∀ name ∈ c.context.keys, name ∈ c.mask.names)
      (hcandidates : n + 1 ≤ c.context.size + c.size + 1)
      (hn : IsLeast
        {k | generatedName k ∉ c.context.keys ∧ generatedName k ∉ c.mask.names} n) :
      NewRow c (rowOf (generatedName n, .empty))

private theorem FirstFree.isLeast {n : Nat} (h : c.FirstFree n) :
    IsLeast {k | generatedName k ∉ c.context.keys ∧ generatedName k ∉ c.mask.names} n := by
  refine ⟨c.isFree_iff.1 h.free, fun m hm => ?_⟩
  by_contra hlt
  have hbusy := h.least m (Nat.lt_of_not_le hlt)
  rw [c.isFree_iff.2 hm] at hbusy
  cases hbusy

/-- Inserting a row appends the next new row and changes nothing else. -/
theorem exists_newRow (c : Customization) :
    ∃ row, c.NewRow row ∧ c.insertRow = c.withEntries (c.entries ++ [row]) := by
  cases hoffered : c.offered with
  | cons e rest =>
    obtain ⟨before, after, hcontext, hbefore, he, -⟩ := List.filter_eq_cons_iff.1 hoffered
    refine ⟨rowOf e, .offered hcontext (fun e' he' => ?_) ?_, insertRow_of_offered_cons hoffered⟩
    · simpa [isShown_iff] using hbefore e' he'
    · simpa [← isShown_iff] using he
  | nil =>
    have hall := List.filter_eq_nil_iff.1 hoffered
    obtain ⟨n, hn, hfree, hrow⟩ := insertRow_of_offered_nil hoffered
    refine ⟨_, .generated (fun name hname => ?_) (Nat.succ_le_succ hn) hfree.isLeast, hrow⟩
    obtain ⟨e, he, rfl⟩ := List.mem_map.1 hname
    simpa [isShown_iff] using hall e he

theorem NewRow.fresh {row : Mask.Entry} (h : c.NewRow row) : row.name ∉ c.mask.names := by
  cases h with
  | offered _ _ he => exact he
  | generated _ _ hn => exact hn.1.2

/-- A new row shows a variable in scope that no row shows, or has a name that is free. -/
theorem exists_insertRow (c : Customization) :
    ∃ row, c.insertRow.entries = c.entries ++ [row] ∧
      (row.name ∈ c.context.keys ∧ c.isShown row.name = false ∨
        ∃ n, row.name = generatedName n ∧ c.isFree row.name = true) := by
  obtain ⟨row, hnew, hrow⟩ := c.exists_newRow
  refine ⟨row, congrArg Customization.entries hrow, ?_⟩
  cases hnew with
  | offered hcontext _ he =>
    refine Or.inl ⟨List.mem_map_of_mem ?_, Bool.eq_false_iff.2 (isShown_iff.not.2 he)⟩
    rw [hcontext]
    exact List.mem_append_right _ List.mem_cons_self
  | generated _ _ hn => exact Or.inr ⟨_, rfl, c.isFree_iff.2 hn.1⟩

private theorem offered_withEntries_concat (entry : Mask.Entry) :
    (c.withEntries (c.entries ++ [entry])).offered =
      c.offered.filter fun e => decide (e.1 ≠ entry.name) := by
  unfold offered
  rw [List.filter_filter]
  apply List.filter_congr
  intro e _
  simp [isShown, withEntries, Mask.names, entries, Bool.and_comm]

private theorem offered_of_cons {e : String × Value} {rest : List (String × Value)}
    (h : c.offered = e :: rest) : (c.withEntries (c.entries ++ [rowOf e])).offered = rest := by
  have hnodup : (c.offered.map Prod.fst).Nodup :=
    c.context.nodup_keys.sublist ((List.filter_sublist).map Prod.fst)
  rw [offered_withEntries_concat, h]
  rw [h, List.map_cons, List.nodup_cons] at hnodup
  rw [List.filter_cons_of_neg (by simp [rowOf]), List.filter_eq_self]
  intro e' he'
  refine decide_eq_true fun heq => hnodup.1 ?_
  rw [← show e'.1 = e.1 from heq]
  exact List.mem_map_of_mem he'

private theorem offered_of_nil (h : c.offered = []) (entry : Mask.Entry) :
    (c.withEntries (c.entries ++ [entry])).offered = [] := by
  rw [offered_withEntries_concat, h]
  rfl

private theorem copied_of_nil (h : c.offered = []) (count : Nat) : c.copied count = [] := by
  unfold copied
  rw [h, List.take_nil]

private theorem isFree_of_concat {entry : Mask.Entry} {name : String}
    (h : (c.withEntries (c.entries ++ [entry])).isFree name = true) :
    c.isFree name = true ∧ name ≠ entry.name := by
  rw [isFree_iff] at h ⊢
  have hnames : (c.withEntries (c.entries ++ [entry])).mask.names =
      c.mask.names ++ [entry.name] := by
    simp [withEntries, Mask.names, entries]
  rw [hnames, List.mem_append, List.mem_singleton, not_or] at h
  exact ⟨⟨h.1, h.2.1⟩, h.2.2⟩

end InsertRow

/-- The rows that were inserted: those of the variables that no row showed, and behind them rows for
the empty matrix whose names are all free and all different. -/
structure Inserted (c : Customization) (count : Nat) (d : Customization) (numbers : List Nat) :
    Prop where
  node : d.node = c.node
  context : d.context = c.context
  title : d.mask.title = c.mask.title
  entries : d.mask.entries = c.mask.entries ++ (c.copied count ++ generated numbers).map rowOf
  free : ∀ n ∈ numbers, c.isFree (generatedName n) = true
  nodup : numbers.Nodup
  size : (c.copied count).length + numbers.length = count

section Steps

variable {c} {count : Nat} {d : Customization} {numbers : List Nat}

private theorem Inserted.of_offered {e : String × Script.Value}
    {rest : List (String × Script.Value)} (hoffered : c.offered = e :: rest)
    (h : Inserted (c.withEntries (c.entries ++ [rowOf e])) count d numbers) :
    Inserted c (count + 1) d numbers := by
  have hcopied : c.copied (count + 1) =
      e :: (c.withEntries (c.entries ++ [rowOf e])).copied count := by
    unfold copied
    rw [hoffered, offered_of_cons hoffered, List.take_succ_cons]
  refine ⟨h.node, h.context, h.title, ?_, fun n hn => ?_, h.nodup, ?_⟩
  · rw [h.entries, hcopied]
    simp [withEntries, Customization.entries]
  · exact (isFree_of_concat (h.free n hn)).1
  · have hsize := h.size
    rw [hcopied, List.length_cons]
    omega

private theorem Inserted.of_generated {n : Nat} (hoffered : c.offered = [])
    (hfree : c.isFree (generatedName n) = true)
    (h : Inserted (c.withEntries (c.entries ++ [rowOf (generatedName n, .empty)])) count d
      numbers) :
    Inserted c (count + 1) d (n :: numbers) := by
  have hcopied := copied_of_nil hoffered (count + 1)
  have hcopied' := copied_of_nil (offered_of_nil hoffered (rowOf (generatedName n, .empty))) count
  refine ⟨h.node, h.context, h.title, ?_, ?_, ?_, ?_⟩
  · rw [h.entries, hcopied, hcopied']
    simp [withEntries, Customization.entries, generated]
  · exact List.forall_mem_cons.2 ⟨hfree, fun m hm => (isFree_of_concat (h.free m hm)).1⟩
  · exact List.nodup_cons.2 ⟨fun hmem => (isFree_of_concat (h.free n hmem)).2 rfl, h.nodup⟩
  · have hsize := h.size
    rw [hcopied'] at hsize
    rw [hcopied, List.length_cons]
    simp only [List.length_nil] at hsize ⊢
    omega

end Steps

theorem exists_inserted (count : Nat) :
    ∃ numbers, Inserted c count (c.insertRows count) numbers := by
  induction count generalizing c with
  | zero => exact ⟨[], rfl, rfl, rfl, by simp [insertRows, copied, generated], nofun, .nil, rfl⟩
  | succ count ih =>
    rw [insertRows]
    cases hoffered : c.offered with
    | cons e rest =>
      obtain ⟨numbers, h⟩ := ih (c.withEntries (c.entries ++ [rowOf e]))
      rw [insertRow_of_offered_cons hoffered]
      exact ⟨numbers, h.of_offered hoffered⟩
    | nil =>
      obtain ⟨n, -, hfirst, hrow⟩ := insertRow_of_offered_nil hoffered
      obtain ⟨numbers, h⟩ := ih (c.withEntries (c.entries ++ [rowOf (generatedName n, .empty)]))
      rw [hrow]
      exact ⟨n :: numbers, h.of_generated hoffered hfirst.free⟩

end DiagramScope.Customization
