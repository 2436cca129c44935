import DiagramScope.Except
import DiagramScope.Script.Evaluation

/-!
Vectors. Main statement: a vector has the cells of its items in their order, and succeeds if no item
is a list and the cells are all numbers or all texts; so brackets within it may be left out.
-/

set_option autoImplicit false
set_option relaxedAutoImplicit false

namespace DiagramScope.Script

namespace Cells

def join (c d : Cells) : Cells := ⟨c.numbers ++ d.numbers, c.texts ++ d.texts⟩

/-- Whether the cells are all numbers or all texts. -/
def Uniform (c : Cells) : Prop := c.numbers = [] ∨ c.texts = []

private theorem none_join (c : Cells) : none.join c = c := rfl

private theorem join_none (c : Cells) : c.join none = c := by
  simp [join, none]

private theorem join_assoc (c d e : Cells) : (c.join d).join e = c.join (d.join e) := by
  simp [join]

private theorem Uniform.of_join {c d : Cells} (h : (c.join d).Uniform) : c.Uniform ∧ d.Uniform := by
  rcases h with h | h
  · obtain ⟨hc, hd⟩ := List.append_eq_nil_iff.1 h
    exact ⟨Or.inl hc, Or.inl hd⟩
  · obtain ⟨hc, hd⟩ := List.append_eq_nil_iff.1 h
    exact ⟨Or.inr hc, Or.inr hd⟩

end Cells

/-- The cells that a value has as an item of a vector. Lists are no items. -/
def Value.cells? : Value → Option Cells
  | .list _ => none
  | v => some ⟨v.numbers?.getD [], v.texts?.getD []⟩

section Values

variable {v : Value} {c d : Cells}

private theorem Value.exists_cells?_iff : (∃ c, v.cells? = some c) ↔ ∀ items, v ≠ .list items := by
  cases v <;> simp [Value.cells?]

private theorem Value.cells?_ofNumbers (cells : List Float) :
    (Value.ofNumbers cells).cells? = some ⟨cells, []⟩ :=
  match cells with
  | [] => rfl
  | [_] => rfl
  | _ :: _ :: _ => rfl

private theorem Value.cells?_ofTexts {cells : List String} (h : cells ≠ []) :
    (Value.ofTexts cells).cells? = some ⟨[], cells⟩ :=
  match cells, h with
  | [_], _ => rfl
  | _ :: _ :: _, _ => rfl

/-- A vector, as an item of another, has the cells that it was made of. -/
theorem Cells.cells?_toValue (h : c.Uniform) : c.toValue.cells? = some c := by
  obtain ⟨numbers, texts⟩ := c
  unfold Cells.toValue
  by_cases hempty : texts = []
  · subst hempty
    exact Value.cells?_ofNumbers numbers
  · obtain rfl : numbers = [] := h.resolve_right hempty
    have hbool : ¬ texts.isEmpty = true := by simpa using hempty
    rw [if_neg hbool]
    exact Value.cells?_ofTexts hempty

private theorem Cells.uniform_and_eq_toValue_iff : c.Uniform ∧ v = c.toValue ↔
    c.texts = [] ∧ v = .ofNumbers c.numbers ∨ c.numbers = [] ∧ v = .ofTexts c.texts := by
  obtain ⟨numbers, texts⟩ := c
  unfold Cells.Uniform Cells.toValue
  cases texts with
  | nil =>
    constructor
    · exact fun h => Or.inl ⟨rfl, h.2⟩
    · rintro (⟨-, rfl⟩ | ⟨hnumbers, rfl⟩)
      · exact ⟨Or.inr rfl, rfl⟩
      · obtain rfl : numbers = [] := hnumbers
        exact ⟨Or.inr rfl, rfl⟩
  | cons t more =>
    constructor
    · exact fun h => Or.inr ⟨h.1.resolve_right nofun, h.2⟩
    · rintro (⟨htexts, -⟩ | ⟨hnumbers, rfl⟩)
      · cases htexts
      · exact ⟨Or.inl hnumbers, rfl⟩

private theorem Cells.checked_eq_ok_iff {span : Span} :
    Cells.append.checked span c = .ok d ↔ d = c ∧ d.Uniform := by
  obtain ⟨numbers, texts⟩ := c
  unfold Cells.append.checked
  by_cases h : numbers = [] ∨ texts = []
  · have hbool : ¬ (!numbers.isEmpty && !texts.isEmpty) = true := by
      rcases h with rfl | rfl <;> simp
    rw [if_neg hbool]
    constructor
    · intro hd
      obtain rfl := Except.ok.inj hd
      exact ⟨rfl, h⟩
    · rintro ⟨rfl, -⟩
      rfl
  · have hbool : (!numbers.isEmpty && !texts.isEmpty) = true := by simpa [not_or] using h
    rw [if_pos hbool]
    constructor
    · exact nofun
    · rintro ⟨rfl, huniform⟩
      exact absurd huniform h

private theorem Cells.append_eq_ok_iff {item : Value} {span : Span} :
    c.append item span = .ok d ↔
      ∃ more, item.cells? = some more ∧ d = c.join more ∧ d.Uniform := by
  have hjoin (more : Cells) (hmore : item.cells? = some more)
      (happend : c.append item span = Cells.append.checked span (c.join more)) :
      c.append item span = .ok d ↔
        ∃ more, item.cells? = some more ∧ d = c.join more ∧ d.Uniform := by
    rw [happend, Cells.checked_eq_ok_iff, hmore]
    simp
  cases item with
  | list items => simp [Cells.append, Value.cells?, Value.numbers?, Value.texts?]
  | text s => exact hjoin _ rfl (by simp [Cells.append, Cells.join, Value.numbers?, Value.texts?])
  | texts cells =>
    exact hjoin _ rfl (by simp [Cells.append, Cells.join, Value.numbers?, Value.texts?])
  | _ => exact hjoin _ rfl (by simp [Cells.append, Cells.join, Value.numbers?, Value.texts?])

end Values

/-- The cells of items that all have a value other than a list, in the order of the items. -/
inductive Gathers (s : Scope) : List Expr → Cells → Prop where
  | nil : Gathers s [] .none
  | cons {e : Expr} {rest : List Expr} {v : Value} {c d : Cells} (he : evaluate s e = .ok v)
      (hv : v.cells? = some c) (hrest : Gathers s rest d) : Gathers s (e :: rest) (c.join d)

section Gathering

variable {s : Scope} {e : Expr} {es fs : List Expr} {c d : Cells} {v : Value} {span : Span}

private theorem gathers_cons_iff : Gathers s (e :: es) c ↔
    ∃ v first more, evaluate s e = .ok v ∧ v.cells? = some first ∧ Gathers s es more ∧
      c = first.join more := by
  constructor
  · intro h
    cases h with
    | cons he hv hrest => exact ⟨_, _, _, he, hv, hrest, rfl⟩
  · rintro ⟨v, first, more, he, hv, hrest, rfl⟩
    exact .cons he hv hrest

private theorem gathers_append_iff : Gathers s (es ++ fs) c ↔
    ∃ first more, Gathers s es first ∧ Gathers s fs more ∧ c = first.join more := by
  induction es generalizing c with
  | nil =>
    constructor
    · exact fun h => ⟨_, c, .nil, h, rfl⟩
    · rintro ⟨_, more, hnil, hfs, rfl⟩
      cases hnil
      exact hfs
  | cons e rest ih =>
    rw [List.cons_append, gathers_cons_iff]
    constructor
    · rintro ⟨v, first, _, he, hv, hrest, rfl⟩
      obtain ⟨second, more, hsecond, hmore, rfl⟩ := ih.1 hrest
      exact ⟨first.join second, more, .cons he hv hsecond, hmore, (Cells.join_assoc ..).symm⟩
    · rintro ⟨_, more, hes, hfs, rfl⟩
      cases hes with
      | @cons _ _ v first second he hv hsecond =>
        exact ⟨v, first, second.join more, he, hv, ih.2 ⟨second, more, hsecond, hfs, rfl⟩,
          Cells.join_assoc ..⟩

private theorem gathers_singleton_iff :
    Gathers s [e] c ↔ ∃ v, evaluate s e = .ok v ∧ v.cells? = some c := by
  rw [gathers_cons_iff]
  constructor
  · rintro ⟨v, first, _, he, hv, hnil, rfl⟩
    cases hnil
    rw [Cells.join_none]
    exact ⟨v, he, hv⟩
  · rintro ⟨v, he, hv⟩
    exact ⟨v, c, .none, he, hv, .nil, (Cells.join_none c).symm⟩

private theorem collect_eq_ok_iff (hc : c.Uniform) :
    collect s c es = .ok d ↔ ∃ more, Gathers s es more ∧ d = c.join more ∧ d.Uniform := by
  induction es generalizing c with
  | nil =>
    simp only [collect, Except.ok.injEq]
    constructor
    · rintro rfl
      exact ⟨.none, .nil, (Cells.join_none c).symm, hc⟩
    · rintro ⟨_, hnil, rfl, -⟩
      cases hnil
      exact (Cells.join_none c).symm
  | cons e rest ih =>
    simp only [collect, Except.bind_eq_ok_iff, Cells.append_eq_ok_iff]
    constructor
    · rintro ⟨v, he, _, ⟨first, hv, rfl, huniform⟩, hrest⟩
      obtain ⟨more, hmore, rfl, hd⟩ := (ih huniform).1 hrest
      exact ⟨first.join more, .cons he hv hmore, Cells.join_assoc .., hd⟩
    · rintro ⟨_, hgathers, rfl, hd⟩
      cases hgathers with
      | @cons _ _ v first more he hv hmore =>
        rw [← Cells.join_assoc] at hd
        have huniform := hd.of_join.1
        refine ⟨v, he, _, ⟨first, hv, rfl, huniform⟩, (ih huniform).2 ?_⟩
        rw [← Cells.join_assoc]
        exact ⟨more, hmore, rfl, hd⟩

/-- A vector has the value that its cells make, if these are uniform. -/
theorem evaluate_vector_eq_ok_iff :
    evaluate s (.vector es span) = .ok v ↔
      ∃ c, Gathers s es c ∧ c.Uniform ∧ v = c.toValue := by
  have hnone : Cells.none.Uniform := Or.inl rfl
  simp only [evaluate, Except.map_eq_ok_iff, collect_eq_ok_iff hnone, Cells.none_join]
  constructor
  · rintro ⟨c, ⟨_, hc, rfl, huniform⟩, rfl⟩
    exact ⟨c, hc, huniform, rfl⟩
  · rintro ⟨c, hc, huniform, rfl⟩
    exact ⟨c, ⟨c, hc, rfl, huniform⟩, rfl⟩

private theorem gathers_vector_iff :
    Gathers s [.vector es span] c ↔ Gathers s es c ∧ c.Uniform := by
  simp only [gathers_singleton_iff, evaluate_vector_eq_ok_iff]
  constructor
  · rintro ⟨_, ⟨d, hd, huniform, rfl⟩, hcells⟩
    rw [Cells.cells?_toValue huniform] at hcells
    obtain rfl := Option.some.inj hcells
    exact ⟨hd, huniform⟩
  · rintro ⟨hc, huniform⟩
    exact ⟨c.toValue, ⟨c, hc, huniform, rfl⟩, Cells.cells?_toValue huniform⟩

private theorem gathers_inner_iff {gs : List Expr} :
    Gathers s (es ++ [.vector fs span] ++ gs) c ∧ c.Uniform ↔
      Gathers s (es ++ fs ++ gs) c ∧ c.Uniform := by
  constructor
  · rintro ⟨h, huniform⟩
    obtain ⟨_, last, hfront, hlast, rfl⟩ := gathers_append_iff.1 h
    obtain ⟨first, inner, hfirst, hinner, rfl⟩ := gathers_append_iff.1 hfront
    have hfront' :=
      gathers_append_iff.2 ⟨first, inner, hfirst, (gathers_vector_iff.1 hinner).1, rfl⟩
    exact ⟨gathers_append_iff.2 ⟨_, last, hfront', hlast, rfl⟩, huniform⟩
  · rintro ⟨h, huniform⟩
    obtain ⟨_, last, hfront, hlast, rfl⟩ := gathers_append_iff.1 h
    obtain ⟨first, inner, hfirst, hinner, rfl⟩ := gathers_append_iff.1 hfront
    have hvector : Gathers s [.vector fs span] inner :=
      gathers_vector_iff.2 ⟨hinner, huniform.of_join.1.of_join.2⟩
    have hfront' := gathers_append_iff.2 ⟨first, inner, hfirst, hvector, rfl⟩
    exact ⟨gathers_append_iff.2 ⟨_, last, hfront', hlast, rfl⟩, huniform⟩

private theorem exists_gathers_iff :
    (∃ c, Gathers s es c) ↔ ∀ e ∈ es, ∃ v, evaluate s e = .ok v ∧ ∀ items, v ≠ .list items := by
  induction es with
  | nil => exact ⟨fun _ e he => absurd he List.not_mem_nil, fun _ => ⟨.none, .nil⟩⟩
  | cons e rest ih =>
    rw [List.forall_mem_cons, ← ih]
    constructor
    · rintro ⟨_, h⟩
      cases h with
      | @cons _ _ v first more he hv hmore =>
        exact ⟨⟨v, he, Value.exists_cells?_iff.1 ⟨first, hv⟩⟩, more, hmore⟩
    · rintro ⟨⟨v, he, hv⟩, more, hmore⟩
      obtain ⟨first, hfirst⟩ := Value.exists_cells?_iff.2 hv
      exact ⟨first.join more, .cons he hfirst hmore⟩

def HasNumber (s : Scope) (e : Expr) : Prop :=
  ∃ v c, evaluate s e = .ok v ∧ v.cells? = some c ∧ c.numbers ≠ []

def HasText (s : Scope) (e : Expr) : Prop :=
  ∃ v c, evaluate s e = .ok v ∧ v.cells? = some c ∧ c.texts ≠ []

private theorem Gathers.occurs_iff {P : Cells → Prop} (hnone : ¬ P .none)
    (hjoin : ∀ c d, P (c.join d) ↔ P c ∨ P d) (h : Gathers s es c) :
    P c ↔ ∃ e ∈ es, ∃ v d, evaluate s e = .ok v ∧ v.cells? = some d ∧ P d := by
  induction h with
  | nil => simp [hnone]
  | @cons e rest v first more he hv _ ih =>
    have hfirst : (∃ v d, evaluate s e = .ok v ∧ v.cells? = some d ∧ P d) ↔ P first := by
      constructor
      · rintro ⟨w, d, hw, hd, hp⟩
        obtain rfl := Except.ok.inj (he.symm.trans hw)
        exact Option.some.inj (hv.symm.trans hd) ▸ hp
      · exact fun hp => ⟨v, first, he, hv, hp⟩
    rw [hjoin, ih]
    simp only [List.mem_cons, exists_eq_or_imp, hfirst]

private theorem Gathers.hasNumber_iff (h : Gathers s es c) :
    c.numbers ≠ [] ↔ ∃ e ∈ es, HasNumber s e := by
  refine h.occurs_iff (P := fun c => c.numbers ≠ []) (not_not_intro rfl) fun c d => ?_
  simp only [Cells.join, ne_eq, List.append_eq_nil_iff, Classical.not_and_iff_not_or_not]

private theorem Gathers.hasText_iff (h : Gathers s es c) :
    c.texts ≠ [] ↔ ∃ e ∈ es, HasText s e := by
  refine h.occurs_iff (P := fun c => c.texts ≠ []) (not_not_intro rfl) fun c d => ?_
  simp only [Cells.join, ne_eq, List.append_eq_nil_iff, Classical.not_and_iff_not_or_not]

private theorem Gathers.uniform_iff (h : Gathers s es c) :
    c.Uniform ↔ ¬ ((∃ e ∈ es, HasNumber s e) ∧ ∃ e ∈ es, HasText s e) := by
  rw [← h.hasNumber_iff, ← h.hasText_iff, Classical.not_and_iff_not_or_not,
    Classical.not_not, Classical.not_not]
  exact Iff.rfl

end Gathering

namespace Expr

mutual

/-- The items that an expression stands for when all brackets around items are left out. -/
def spliced : Expr → List Expr
  | vector items _ => splicedAll items
  | e => [e]

def splicedAll : List Expr → List Expr
  | [] => []
  | e :: rest => spliced e ++ splicedAll rest

end

end Expr

mutual

private theorem gathers_spliced_iff {s : Scope} {c : Cells} (hc : c.Uniform) (e : Expr) :
    Gathers s e.spliced c ↔ Gathers s [e] c := by
  cases e with
  | vector items span =>
    rw [Expr.spliced, gathers_splicedAll_iff hc items, gathers_vector_iff]
    exact (and_iff_left hc).symm
  | _ => rfl

/-- All brackets within a vector can be left out, at any depth. -/
theorem gathers_splicedAll_iff {s : Scope} {c : Cells} (hc : c.Uniform) (es : List Expr) :
    Gathers s (Expr.splicedAll es) c ↔ Gathers s es c := by
  cases es with
  | nil => rfl
  | cons e rest =>
    rw [Expr.splicedAll, gathers_append_iff, ← List.singleton_append, gathers_append_iff]
    constructor
    · rintro ⟨first, more, hfirst, hmore, rfl⟩
      obtain ⟨huniform, huniform'⟩ := hc.of_join
      exact ⟨first, more, (gathers_spliced_iff huniform e).1 hfirst,
        (gathers_splicedAll_iff huniform' rest).1 hmore, rfl⟩
    · rintro ⟨first, more, hfirst, hmore, rfl⟩
      obtain ⟨huniform, huniform'⟩ := hc.of_join
      exact ⟨first, more, (gathers_spliced_iff huniform e).2 hfirst,
        (gathers_splicedAll_iff huniform' rest).2 hmore, rfl⟩

end

/-- Whether vectors in a scope are flat. Brackets around some of the items, and all brackets at any
depth, can be left out: the vector succeeds just the same, and with the same value. It succeeds if
each item has a value other than a list and not both a number and a text occur as cells; its value
is then the row of all cells in their order. -/
structure Scope.HasFlatVectors (s : Scope) : Prop where
  inner : ∀ xs ys zs span span' span'' v,
    evaluate s (.vector (xs ++ [.vector ys span] ++ zs) span') = .ok v ↔
      evaluate s (.vector (xs ++ ys ++ zs) span'') = .ok v
  nested : ∀ items span span' v,
    evaluate s (.vector items span) = .ok v ↔
      evaluate s (.vector (Expr.splicedAll items) span') = .ok v
  succeeds : ∀ items span, (∃ v, evaluate s (.vector items span) = .ok v) ↔
    (∀ e ∈ items, ∃ v, evaluate s e = .ok v ∧ ∀ list, v ≠ .list list) ∧
      ¬ ((∃ e ∈ items, HasNumber s e) ∧ ∃ e ∈ items, HasText s e)
  value : ∀ items span v, evaluate s (.vector items span) = .ok v ↔
    ∃ c, Gathers s items c ∧ (c.texts = [] ∧ v = .ofNumbers c.numbers ∨
      c.numbers = [] ∧ v = .ofTexts c.texts)

/-- Vectors are flat in every scope. -/
theorem vectors_are_flat (s : Scope) : s.HasFlatVectors where
  inner xs ys zs span span' span'' v := by
    simp only [evaluate_vector_eq_ok_iff, ← and_assoc, gathers_inner_iff]
  nested items span span' v := by
    simp only [evaluate_vector_eq_ok_iff]
    refine exists_congr fun c => ?_
    constructor
    · rintro ⟨hc, huniform, rfl⟩
      exact ⟨(gathers_splicedAll_iff huniform items).2 hc, huniform, rfl⟩
    · rintro ⟨hc, huniform, rfl⟩
      exact ⟨(gathers_splicedAll_iff huniform items).1 hc, huniform, rfl⟩
  succeeds items span := by
    rw [← exists_gathers_iff]
    constructor
    · rintro ⟨v, hv⟩
      obtain ⟨c, hc, huniform, -⟩ := evaluate_vector_eq_ok_iff.1 hv
      exact ⟨⟨c, hc⟩, hc.uniform_iff.1 huniform⟩
    · rintro ⟨⟨c, hc⟩, hcells⟩
      exact ⟨c.toValue, evaluate_vector_eq_ok_iff.2 ⟨c, hc, hc.uniform_iff.2 hcells, rfl⟩⟩
  value items span v := by
    rw [evaluate_vector_eq_ok_iff]
    exact exists_congr fun c => and_congr_right fun _ => Cells.uniform_and_eq_toValue_iff

end DiagramScope.Script
