/-!
Finite maps that keep their keys in the order of first insertion. Writing to a key that is present
keeps its place. Main statements: what a look-up finds after an insertion, and which keys there are.
-/

set_option autoImplicit false
set_option relaxedAutoImplicit false

namespace DiagramScope

/-- A finite map whose entries stand in the order in which their keys were first inserted. -/
structure OrderedMap (κ α : Type) where
  entries : List (κ × α)
  nodup_keys : (entries.map Prod.fst).Nodup

namespace OrderedMap

variable {κ α : Type}

def empty : OrderedMap κ α := ⟨[], List.nodup_nil⟩

instance : EmptyCollection (OrderedMap κ α) := ⟨empty⟩

instance : Inhabited (OrderedMap κ α) := ⟨empty⟩

@[ext]
theorem ext {m n : OrderedMap κ α} (h : m.entries = n.entries) : m = n := by
  cases m
  cases n
  simp_all

instance [DecidableEq κ] [DecidableEq α] : DecidableEq (OrderedMap κ α) := fun m n =>
  decidable_of_iff (m.entries = n.entries) ⟨ext, congrArg entries⟩

def keys (m : OrderedMap κ α) : List κ := m.entries.map Prod.fst

def values (m : OrderedMap κ α) : List α := m.entries.map Prod.snd

def size (m : OrderedMap κ α) : Nat := m.entries.length

def isEmpty (m : OrderedMap κ α) : Bool := m.entries.isEmpty

section Lookup

variable [DecidableEq κ]

def find (k : κ) : List (κ × α) → Option α
  | [] => none
  | (k', a) :: rest => if k' = k then some a else find k rest

/-- Entries with `k` bound to `a`: in the place of `k` if it is there, else at the end. -/
def put (k : κ) (a : α) : List (κ × α) → List (κ × α)
  | [] => [(k, a)]
  | (k', a') :: rest => if k' = k then (k', a) :: rest else (k', a') :: put k a rest

theorem keys_put (k : κ) (a : α) (es : List (κ × α)) :
    (put k a es).map Prod.fst =
      if k ∈ es.map Prod.fst then es.map Prod.fst else es.map Prod.fst ++ [k] := by
  induction es with
  | nil => simp [put]
  | cons e rest ih =>
    by_cases h : e.1 = k
    · simp [put, h]
    · have h' : ¬ k = e.1 := fun he => h he.symm
      by_cases hm : k ∈ rest.map Prod.fst
      · simp only [List.map_cons, List.mem_cons, h', hm, or_true, if_true, put, h, if_false]
        rw [ih, if_pos hm]
      · simp only [List.map_cons, List.mem_cons, h', hm, or_false, if_false, put, h]
        rw [ih, if_neg hm]
        rfl

theorem nodup_keys_put (k : κ) (a : α) {es : List (κ × α)} (h : (es.map Prod.fst).Nodup) :
    ((put k a es).map Prod.fst).Nodup := by
  rw [keys_put]
  split
  · exact h
  · next hk =>
    rw [List.nodup_append]
    refine ⟨h, by simp, ?_⟩
    intro x hx y hy hxy
    simp only [List.mem_singleton] at hy
    exact hk (hy ▸ hxy ▸ hx)

def get? (m : OrderedMap κ α) (k : κ) : Option α := find k m.entries

def contains (m : OrderedMap κ α) (k : κ) : Bool := (m.get? k).isSome

/-- Binds `k` to `a`. A key that is present keeps its place. -/
def insert (m : OrderedMap κ α) (k : κ) (a : α) : OrderedMap κ α :=
  ⟨put k a m.entries, nodup_keys_put k a m.nodup_keys⟩

def insertAll (m : OrderedMap κ α) (es : List (κ × α)) : OrderedMap κ α :=
  es.foldl (fun acc e => acc.insert e.1 e.2) m

def extend (m n : OrderedMap κ α) : OrderedMap κ α := m.insertAll n.entries

/-- The map of a list of entries: a repeated key keeps its first place and its last value. -/
def ofList (es : List (κ × α)) : OrderedMap κ α := empty.insertAll es

theorem find_put_self (k : κ) (a : α) (es : List (κ × α)) : find k (put k a es) = some a := by
  induction es with
  | nil => simp [put, find]
  | cons e rest ih =>
    by_cases h : e.1 = k
    · simp [put, find, h]
    · simp [put, find, h, ih]

theorem find_put_of_ne {k k' : κ} (hne : k' ≠ k) (a : α) (es : List (κ × α)) :
    find k' (put k a es) = find k' es := by
  induction es with
  | nil => simp [put, find, Ne.symm hne]
  | cons e rest ih =>
    by_cases h : e.1 = k
    · simp [put, find, h, Ne.symm hne]
    · simp [put, find, h, ih]

@[simp]
theorem get?_insert_self (m : OrderedMap κ α) (k : κ) (a : α) :
    (m.insert k a).get? k = some a :=
  find_put_self k a m.entries

theorem get?_insert_of_ne (m : OrderedMap κ α) {k k' : κ} (hne : k' ≠ k) (a : α) :
    (m.insert k a).get? k' = m.get? k' :=
  find_put_of_ne hne a m.entries

@[simp]
theorem get?_empty (k : κ) : (empty : OrderedMap κ α).get? k = none := rfl

theorem keys_insert (m : OrderedMap κ α) (k : κ) (a : α) :
    (m.insert k a).keys = if k ∈ m.keys then m.keys else m.keys ++ [k] :=
  keys_put k a m.entries

theorem find_isSome_iff (k : κ) (es : List (κ × α)) :
    (find k es).isSome = true ↔ k ∈ es.map Prod.fst := by
  induction es with
  | nil => simp [find]
  | cons e rest ih =>
    by_cases h : e.1 = k
    · simp [find, h]
    · have h' : ¬ k = e.1 := fun he => h he.symm
      simp only [find, h, if_false, ih, List.map_cons, List.mem_cons, h', false_or]

theorem contains_iff_mem_keys (m : OrderedMap κ α) (k : κ) :
    m.contains k = true ↔ k ∈ m.keys :=
  find_isSome_iff k m.entries

end Lookup

end OrderedMap

end DiagramScope
