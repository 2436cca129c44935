/-!
Computations that succeed or fail, taken apart: when a sequence, a fold or a list of them succeeds,
and with which failure it fails.
-/

set_option autoImplicit false
set_option relaxedAutoImplicit false

namespace Except

variable {ε α β : Type}

theorem bind_eq_ok_iff {r : Except ε α} {f : α → Except ε β} {b : β} :
    r >>= f = .ok b ↔ ∃ a, r = .ok a ∧ f a = .ok b := by
  cases r with
  | error e => simp [bind, Except.bind]
  | ok a => simp [bind, Except.bind]

theorem bind_eq_error_iff {r : Except ε α} {f : α → Except ε β} {e : ε} :
    r >>= f = .error e ↔ r = .error e ∨ ∃ a, r = .ok a ∧ f a = .error e := by
  cases r with
  | error e => simp [bind, Except.bind]
  | ok a => simp [bind, Except.bind]

theorem bind_congr_of_ok {r : Except ε α} {f g : α → Except ε β}
    (h : ∀ a, r = .ok a → f a = g a) : r >>= f = r >>= g := by
  cases r with
  | error e => rfl
  | ok a => exact h a rfl

theorem map_eq_ok_iff {r : Except ε α} {f : α → β} {b : β} :
    r.map f = .ok b ↔ ∃ a, r = .ok a ∧ f a = b := by
  cases r with
  | error e => simp [Except.map]
  | ok a => simp [Except.map]

theorem map_bind {γ : Type} {r : Except ε α} {f : α → γ} {g : γ → Except ε β} :
    r.map f >>= g = r >>= fun a => g (f a) := by
  cases r <;> rfl

theorem mapError_eq_ok_iff {ε' : Type} {r : Except ε α} {f : ε → ε'} {a : α} :
    r.mapError f = .ok a ↔ r = .ok a := by
  cases r with
  | error e => exact ⟨nofun, nofun⟩
  | ok b =>
    constructor
    · rintro ⟨⟩
      rfl
    · rintro ⟨⟩
      rfl

/-- Steps in a row fail with the failure of the first one that fails. -/
theorem foldlM_eq_error_iff {step : β → α → Except ε β} {items : List α} {b : β} {e : ε} :
    items.foldlM step b = .error e ↔
      ∃ taken a rest b', items = taken ++ a :: rest ∧ taken.foldlM step b = .ok b' ∧
        step b' a = .error e := by
  induction items generalizing b with
  | nil => simp [pure, Except.pure]
  | cons first rest ih =>
    rw [List.foldlM_cons, bind_eq_error_iff]
    constructor
    · rintro (hfirst | ⟨b₁, hfirst, hrest⟩)
      · exact ⟨[], first, rest, b, rfl, rfl, hfirst⟩
      · obtain ⟨taken, a, rest, b', rfl, htaken, hlast⟩ := ih.1 hrest
        refine ⟨first :: taken, a, rest, b', rfl, ?_, hlast⟩
        rw [List.foldlM_cons]
        exact bind_eq_ok_iff.2 ⟨b₁, hfirst, htaken⟩
    · rintro ⟨_ | ⟨first', taken⟩, a, rest', b', hitems, htaken, hlast⟩
      · obtain ⟨rfl, -⟩ := List.cons.inj hitems
        cases htaken
        exact .inl hlast
      · obtain ⟨rfl, hrest⟩ := List.cons.inj hitems
        rw [List.foldlM_cons] at htaken
        obtain ⟨b₁, hfirst, htaken⟩ := bind_eq_ok_iff.1 htaken
        exact .inr ⟨b₁, hfirst, ih.2 ⟨taken, a, rest', b', hrest, htaken, hlast⟩⟩

section Lists

variable {f : α → Except ε β} {as : List α}

theorem mapM_congr {g : α → Except ε β} (h : ∀ a ∈ as, f a = g a) : as.mapM f = as.mapM g := by
  induction as with
  | nil => rfl
  | cons a rest ih =>
    obtain ⟨ha, hrest⟩ := List.forall_mem_cons.1 h
    rw [List.mapM_cons, List.mapM_cons, ha, ih hrest]

theorem mapM_concat_eq_ok_iff {last : α} {results : List β} :
    (as ++ [last]).mapM f = .ok results ↔
      ∃ before result, as.mapM f = .ok before ∧ f last = .ok result ∧
        results = before ++ [result] := by
  simp only [List.mapM_append, List.mapM_cons, List.mapM_nil, bind_eq_ok_iff]
  constructor
  · rintro ⟨before, hbefore, _, ⟨result, hresult, _, hnil, hlast⟩, hpure⟩
    obtain rfl := Except.ok.inj hnil
    obtain rfl := Except.ok.inj hlast
    exact ⟨before, result, hbefore, hresult, (Except.ok.inj hpure).symm⟩
  · rintro ⟨before, result, hbefore, hresult, rfl⟩
    exact ⟨before, hbefore, _, ⟨result, hresult, _, rfl, rfl⟩, rfl⟩

/-- What a function that can fail makes of a list, each item beside its result. -/
theorem mapM_eq_ok_iff_entries {bs : List β} :
    as.mapM f = .ok bs ↔ ∃ entries : List (α × β), entries.map Prod.fst = as ∧
      entries.map Prod.snd = bs ∧ ∀ entry ∈ entries, f entry.1 = .ok entry.2 := by
  induction as generalizing bs with
  | nil =>
    constructor
    · intro h
      obtain rfl := Except.ok.inj h
      exact ⟨[], rfl, rfl, nofun⟩
    · rintro ⟨entries, hnil, rfl, -⟩
      obtain rfl := List.map_eq_nil_iff.1 hnil
      rfl
  | cons a rest ih =>
    simp only [List.mapM_cons, bind_eq_ok_iff, ih]
    constructor
    · rintro ⟨b, hb, _, ⟨entries, rfl, rfl, hentries⟩, hpure⟩
      obtain rfl := Except.ok.inj hpure
      exact ⟨(a, b) :: entries, rfl, rfl, List.forall_mem_cons.2 ⟨hb, hentries⟩⟩
    · rintro ⟨entries, hfst, rfl, hentries⟩
      obtain ⟨⟨_, b⟩, entries, rfl, rfl, rfl⟩ := List.map_eq_cons_iff.1 hfst
      obtain ⟨hb, hentries⟩ := List.forall_mem_cons.1 hentries
      exact ⟨b, hb, _, ⟨entries, rfl, rfl, hentries⟩, rfl⟩

end Lists

end Except
