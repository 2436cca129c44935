import DiagramScope.OrderedMap

/-!
One ordered map written over another. Main statements: the keys and the values of the result, which
determine it, and that an insertion can be done before the writing or after it.
-/

set_option autoImplicit false
set_option relaxedAutoImplicit false

namespace DiagramScope.OrderedMap

variable {κ α : Type} [DecidableEq κ]

private theorem put_cons_self (k : κ) (a b : α) (es : List (κ × α)) :
    put k a ((k, b) :: es) = (k, a) :: es := by
  simp [put]

private theorem put_cons_of_ne {k : κ} {e : κ × α} (h : e.1 ≠ k) (a : α) (es : List (κ × α)) :
    put k a (e :: es) = e :: put k a es := by
  simp [put, h]

private theorem put_of_notMem {k : κ} (a : α) {es : List (κ × α)} (hk : k ∉ es.map Prod.fst) :
    put k a es = es ++ [(k, a)] := by
  induction es with
  | nil => rfl
  | cons e rest ih =>
    obtain ⟨hne, hrest⟩ := not_or.1 (fun h => hk (List.mem_cons.2 h))
    rw [put_cons_of_ne (Ne.symm hne), ih hrest, List.cons_append]

private theorem put_put_self (k : κ) (a b : α) (es : List (κ × α)) :
    put k b (put k a es) = put k b es := by
  induction es with
  | nil => simp [put]
  | cons e rest ih =>
    obtain ⟨key, value⟩ := e
    by_cases h : key = k
    · subst h
      rw [put_cons_self, put_cons_self, put_cons_self]
    · rw [put_cons_of_ne h, put_cons_of_ne h, put_cons_of_ne h, ih]

private theorem put_put_comm {k k' : κ} (hne : k' ≠ k) (a b : α) {es : List (κ × α)}
    (hk : k ∈ es.map Prod.fst) : put k a (put k' b es) = put k' b (put k a es) := by
  induction es with
  | nil => simp at hk
  | cons e rest ih =>
    obtain ⟨key, value⟩ := e
    by_cases h : key = k
    · subst h
      rw [put_cons_of_ne (Ne.symm hne), put_cons_self, put_cons_self,
        put_cons_of_ne (Ne.symm hne)]
    · by_cases h' : key = k'
      · subst h'
        rw [put_cons_self, put_cons_of_ne h, put_cons_of_ne h, put_cons_self]
      · have hrest : k ∈ rest.map Prod.fst := by
          rcases List.mem_cons.1 hk with he | hm
          · exact absurd he.symm h
          · exact hm
        rw [put_cons_of_ne h', put_cons_of_ne h, put_cons_of_ne h, put_cons_of_ne h', ih hrest]

private theorem insert_insert_self (m : OrderedMap κ α) (k : κ) (a b : α) :
    (m.insert k a).insert k b = m.insert k b :=
  ext (put_put_self k a b m.entries)

private theorem insert_comm (m : OrderedMap κ α) {k k' : κ} (hne : k' ≠ k) (a b : α)
    (hk : k ∈ m.keys) : (m.insert k' b).insert k a = (m.insert k a).insert k' b :=
  ext (put_put_comm hne a b hk)

theorem mem_keys_insert (m : OrderedMap κ α) (k k' : κ) (a : α) :
    k' ∈ (m.insert k a).keys ↔ k' = k ∨ k' ∈ m.keys := by
  rw [keys_insert]
  split
  · next hk =>
    constructor
    · exact Or.inr
    · rintro (rfl | hm)
      · exact hk
      · exact hm
  · simp [or_comm]

theorem entries_insert_of_notMem (m : OrderedMap κ α) {k : κ} (a : α) (hk : k ∉ m.keys) :
    (m.insert k a).entries = m.entries ++ [(k, a)] :=
  put_of_notMem a hk

theorem get?_eq_none_iff (m : OrderedMap κ α) (k : κ) : m.get? k = none ↔ k ∉ m.keys := by
  rw [← contains_iff_mem_keys, contains]
  cases m.get? k <;> simp

private theorem ext_get? {m n : OrderedMap κ α} (hkeys : m.keys = n.keys)
    (hget : ∀ k, m.get? k = n.get? k) : m = n := by
  obtain ⟨es, hes⟩ := m
  obtain ⟨fs, hfs⟩ := n
  apply ext
  simp only [keys, get?] at hkeys hget ⊢
  induction es generalizing fs with
  | nil => exact (List.map_eq_nil_iff.1 hkeys.symm).symm
  | cons e rest ih =>
    obtain _ | ⟨f, more⟩ := fs
    · simp at hkeys
    · obtain ⟨hfirst, hmore⟩ := List.cons.inj hkeys
      have hvalue := hget e.1
      simp only [find, if_true, if_pos hfirst.symm, Option.some.injEq] at hvalue
      have hhead : e = f := Prod.ext hfirst hvalue
      subst hhead
      obtain ⟨hfresh, hrest⟩ := List.nodup_cons.1 hes
      obtain ⟨hfresh', hmore'⟩ := List.nodup_cons.1 hfs
      have htail : rest = more := by
        apply ih hrest more hmore' hmore
        intro k
        by_cases hk : e.1 = k
        · subst hk
          have hnone : ∀ {es : List (κ × α)}, e.1 ∉ es.map Prod.fst → find e.1 es = none := by
            intro es hes
            rw [← find_isSome_iff] at hes
            simpa using hes
          rw [hnone hfresh, hnone hfresh']
        · have hk' := hget k
          simpa only [find, if_neg hk] using hk'
      rw [htail]

private theorem insertAll_cons (m : OrderedMap κ α) (e : κ × α) (es : List (κ × α)) :
    m.insertAll (e :: es) = (m.insert e.1 e.2).insertAll es := rfl

private theorem insertAll_insert {k : κ} (a : α) {es : List (κ × α)} (hes : k ∉ es.map Prod.fst)
    {m : OrderedMap κ α} (hm : k ∈ m.keys) :
    (m.insertAll es).insert k a = (m.insert k a).insertAll es := by
  induction es generalizing m with
  | nil => rfl
  | cons e rest ih =>
    obtain ⟨hne, hrest⟩ := not_or.1 (fun h => hes (List.mem_cons.2 h))
    have hmem : k ∈ (m.insert e.1 e.2).keys := (mem_keys_insert ..).2 (Or.inr hm)
    rw [insertAll_cons, insertAll_cons, ih hrest hmem, insert_comm m (Ne.symm hne) a e.2 hm]

private theorem insertAll_put {k : κ} (a : α) {es : List (κ × α)} (hes : (es.map Prod.fst).Nodup)
    (m : OrderedMap κ α) : m.insertAll (put k a es) = (m.insertAll es).insert k a := by
  induction es generalizing m with
  | nil => rfl
  | cons e rest ih =>
    obtain ⟨hfresh, hrest⟩ := List.nodup_cons.1 hes
    obtain ⟨key, value⟩ := e
    by_cases h : key = k
    · subst h
      have hmem : key ∈ (m.insert key value).keys := (mem_keys_insert ..).2 (Or.inl rfl)
      rw [put_cons_self, insertAll_cons, insertAll_cons, insertAll_insert a hfresh hmem,
        insert_insert_self]
    · rw [put_cons_of_ne h, insertAll_cons, insertAll_cons, ih hrest]

/-- Inserting into the map on top and then writing it over another is writing it over the other and
then inserting. -/
theorem extend_insert (m n : OrderedMap κ α) (k : κ) (a : α) :
    m.extend (n.insert k a) = (m.extend n).insert k a :=
  insertAll_put a n.nodup_keys m

theorem get?_insertAll (k : κ) {es : List (κ × α)} (hes : (es.map Prod.fst).Nodup)
    (m : OrderedMap κ α) : (m.insertAll es).get? k = (find k es).or (m.get? k) := by
  induction es generalizing m with
  | nil => rfl
  | cons e rest ih =>
    obtain ⟨hfresh, hrest⟩ := List.nodup_cons.1 hes
    rw [insertAll_cons, ih hrest]
    by_cases h : e.1 = k
    · subst h
      have hnone : find e.1 rest = none := by
        rw [← find_isSome_iff] at hfresh
        simpa using hfresh
      simp [find, hnone]
    · have hfind : find k (e :: rest) = find k rest := by simp [find, h]
      rw [hfind, get?_insert_of_ne m (Ne.symm h)]

theorem get?_extend (m n : OrderedMap κ α) (k : κ) :
    (m.extend n).get? k = (n.get? k).or (m.get? k) :=
  get?_insertAll k n.nodup_keys m

theorem keys_insertAll {es : List (κ × α)} (hes : (es.map Prod.fst).Nodup)
    (m : OrderedMap κ α) :
    (m.insertAll es).keys = m.keys ++ (es.map Prod.fst).filter fun k => !m.contains k := by
  induction es generalizing m with
  | nil => exact (List.append_nil _).symm
  | cons e rest ih =>
    obtain ⟨hfresh, hrest⟩ := List.nodup_cons.1 hes
    have hsame : (rest.map Prod.fst).filter (fun k => !(m.insert e.1 e.2).contains k) =
        (rest.map Prod.fst).filter fun k => !m.contains k := by
      apply List.filter_congr
      intro k hk
      have hne : k ≠ e.1 := fun he => hfresh (he ▸ hk)
      rw [contains, contains, get?_insert_of_ne m hne]
    rw [insertAll_cons, ih hrest, hsame, keys_insert, List.map_cons, List.filter_cons]
    by_cases hk : e.1 ∈ m.keys
    · have hc : m.contains e.1 = true := (contains_iff_mem_keys m e.1).2 hk
      simp [hk, hc]
    · have hc : m.contains e.1 = false := by
        rw [← contains_iff_mem_keys] at hk
        simpa using hk
      simp [hk, hc]

theorem keys_extend (m n : OrderedMap κ α) :
    (m.extend n).keys = m.keys ++ n.keys.filter fun k => !m.contains k :=
  keys_insertAll n.nodup_keys m

private theorem find_of_mem {k : κ} {a : α} {es : List (κ × α)} (hes : (es.map Prod.fst).Nodup)
    (h : (k, a) ∈ es) : find k es = some a := by
  induction es with
  | nil => cases h
  | cons e rest ih =>
    rw [List.map_cons, List.nodup_cons] at hes
    rcases List.mem_cons.1 h with rfl | h
    · simp [find]
    · have hne : e.1 ≠ k := by
        rintro rfl
        exact hes.1 (List.mem_map.2 ⟨_, h, rfl⟩)
      simp [find, hne, ih hes.2 h]

theorem get?_of_mem_entries {m : OrderedMap κ α} {e : κ × α} (h : e ∈ m.entries) :
    m.get? e.1 = some e.2 :=
  find_of_mem m.nodup_keys h

omit [DecidableEq κ] in
theorem keys_zip_values (m : OrderedMap κ α) : m.keys.zip m.values = m.entries := by
  unfold keys values
  rw [List.zip_map']
  exact List.map_id m.entries

@[simp]
theorem ofList_entries (m : OrderedMap κ α) : ofList m.entries = m := by
  refine ext_get? ?_ fun k => ?_
  · rw [ofList, keys_insertAll m.nodup_keys]
    have hall : ∀ k ∈ m.entries.map Prod.fst, (!(empty : OrderedMap κ α).contains k) = true :=
      fun _ _ => rfl
    rw [List.filter_eq_self.2 hall]
    rfl
  · rw [ofList, get?_insertAll k m.nodup_keys, get?_empty, Option.or_none]
    rfl

/-- A map is `n` written over `m`: the keys of `m` keep their places and the new keys of `n` follow
in their own order, and a key has its value in `n` if it is there, else its value in `m`. -/
structure IsOverlay (m n r : OrderedMap κ α) : Prop where
  keys : r.keys = m.keys ++ n.keys.filter fun k => !m.contains k
  get? : ∀ k, r.get? k = (n.get? k).or (m.get? k)

/-- There is exactly one such map. -/
theorem isOverlay_iff (m n r : OrderedMap κ α) : IsOverlay m n r ↔ r = m.extend n := by
  constructor
  · intro h
    exact ext_get? (h.keys.trans (keys_extend m n).symm)
      fun k => (h.get? k).trans (get?_extend m n k).symm
  · rintro rfl
    exact ⟨keys_extend m n, get?_extend m n⟩

end DiagramScope.OrderedMap
