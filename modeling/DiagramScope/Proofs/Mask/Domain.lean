import DiagramScope.Proofs.Mask.Orientation

/-!
Which stored values are masks. Main statement: exactly which values can be decoded, which mask each
of them gives cell by cell, and that no description is ever missing.
-/

set_option autoImplicit false
set_option relaxedAutoImplicit false

namespace DiagramScope

def Matrix.isHigh {α : Type} (m : Matrix α) : Bool := m.cols ≤ m.rows

namespace Wire

/-- The text at a place of the first column, or of the first row, of a matrix of texts. -/
def textAt? (w : Wire) (down : Bool) (index : Nat) : Option String :=
  w.texts?.bind fun m => if down then m.get? index 0 else m.get? 0 index

/-- Whether the value is a matrix of texts whose first column, or first row, has so many cells. -/
def Covers (w : Wire) (down : Bool) (count : Nat) : Prop :=
  ∃ m, w = .texts m ∧
    if down then 1 ≤ m.cols ∧ count ≤ m.rows else 1 ≤ m.rows ∧ count ≤ m.cols

end Wire

namespace Mask

def rowCount (descriptions : Matrix String) : Nat := max descriptions.rows descriptions.cols - 1

/-- The three text fields of a value that can be decoded. -/
structure Decodable (values names : Wire) (descriptions : Matrix String) : Prop where
  valuesPlain : values.list? = none
  namesPlain : names.list? = none
  title : 0 < descriptions.size
  rows : 0 < rowCount descriptions →
    values.Covers descriptions.isHigh (rowCount descriptions) ∧
      names.Covers descriptions.isHigh (rowCount descriptions)

/-- A mask and the cells of the fields that it is decoded from. -/
structure ReadByCell (values names : Wire) (descriptions : Matrix String) (mask : Mask) : Prop where
  valuesPlain : values.list? = none
  namesPlain : names.list? = none
  title : (Wire.texts descriptions).textAt? descriptions.isHigh 0 = some mask.title
  size : mask.size = rowCount descriptions
  rows : ∀ index entry, mask.entries[index]? = some entry →
    names.textAt? descriptions.isHigh index = some entry.name ∧
      values.textAt? descriptions.isHigh index = some entry.value ∧
        (Wire.texts descriptions).textAt? descriptions.isHigh (index + 1) = some entry.description

section Direction

variable (descriptions : Matrix String)

private theorem textAt?_isHigh (w : Wire) (index : Nat) :
    w.textAt? descriptions.isHigh index =
      w.texts?.bind fun m => (Orientation.ofDescriptions descriptions).cell? m index := by
  unfold Wire.textAt? Matrix.isHigh Orientation.ofDescriptions
  by_cases h : descriptions.cols ≤ descriptions.rows <;> simp [h, Orientation.cell?]

private theorem textAt?_descriptions (index : Nat) :
    (Wire.texts descriptions).textAt? descriptions.isHigh index =
      (Orientation.ofDescriptions descriptions).cell? descriptions index :=
  textAt?_isHigh descriptions (.texts descriptions) index

private theorem length_ofDescriptions :
    (Orientation.ofDescriptions descriptions).length descriptions =
      max descriptions.rows descriptions.cols := by
  unfold Orientation.ofDescriptions
  by_cases h : descriptions.cols ≤ descriptions.rows
  · rw [if_pos h, Nat.max_eq_left h]
    rfl
  · rw [if_neg h, Nat.max_eq_right (Nat.le_of_not_le h)]
    rfl

private theorem covers_succ_iff {w : Wire} {down : Bool} {count : Nat} :
    w.Covers down (count + 1) ↔ (w.textAt? down count).isSome = true := by
  cases w with
  | doubles m => simp [Wire.Covers, Wire.textAt?, Wire.texts?]
  | list items => simp [Wire.Covers, Wire.textAt?, Wire.texts?]
  | texts m =>
    unfold Wire.Covers Wire.textAt?
    cases down with
    | true => simp [Wire.texts?, Matrix.isSome_get?, Nat.succ_le_iff, and_comm]
    | false => simp [Wire.texts?, Matrix.isSome_get?, Nat.succ_le_iff]

private theorem textAt?_ne_none {w : Wire} {down : Bool} {count index : Nat}
    (h : w.Covers down count) (hindex : index < count) : w.textAt? down index ≠ none := by
  obtain ⟨m, rfl, hm⟩ := h
  refine Option.isSome_iff_ne_none.1 (covers_succ_iff.1 ⟨m, rfl, ?_⟩)
  cases down with
  | true => exact ⟨hm.1, Nat.lt_of_lt_of_le hindex hm.2⟩
  | false => exact ⟨hm.1, Nat.lt_of_lt_of_le hindex hm.2⟩

private theorem size_pos_of_textAt? {m : Matrix String} {down : Bool} {index : Nat} {s : String}
    (h : (Wire.texts m).textAt? down index = some s) : 0 < m.size := by
  by_contra hsize
  have hcells : m.cells = [] := List.eq_nil_of_length_eq_zero (Nat.eq_zero_of_not_pos hsize)
  simp [Wire.textAt?, Wire.texts?, Matrix.get?, hcells] at h

variable {descriptions}

private theorem covers_descriptions (h : 0 < descriptions.size) :
    (Wire.texts descriptions).Covers descriptions.isHigh (rowCount descriptions + 1) := by
  have hcells : 0 < descriptions.rows * descriptions.cols := descriptions.length_cells ▸ h
  have hrows : 1 ≤ descriptions.rows := Nat.pos_of_mul_pos_right hcells
  have hcols : 1 ≤ descriptions.cols := Nat.pos_of_mul_pos_left hcells
  refine ⟨descriptions, rfl, ?_⟩
  unfold Matrix.isHigh rowCount
  by_cases hhigh : descriptions.cols ≤ descriptions.rows
  · rw [decide_eq_true hhigh, if_pos rfl, Nat.max_eq_left hhigh]
    exact ⟨hcols, Nat.le_of_eq (Nat.sub_add_cancel hrows)⟩
  · rw [decide_eq_false hhigh, if_neg Bool.false_ne_true,
      Nat.max_eq_right (Nat.le_of_not_le hhigh)]
    exact ⟨hrows, Nat.le_of_eq (Nat.sub_add_cancel hcols)⟩

end Direction

section Rows

variable {orientation : Orientation} {names values : Option (Matrix String)}
  {descriptions : Matrix String} {fault : ShapeFault}

private theorem entriesFrom_eq_ok_iff_entryAt {count index : Nat} {entries : List Entry} :
    entriesFrom orientation names values descriptions count index = .ok entries ↔
      entries.length = count ∧ ∀ place entry, entries[place]? = some entry →
        entryAt orientation names values descriptions (index + place) = .ok entry := by
  induction count generalizing index entries with
  | zero =>
    unfold entriesFrom
    rw [List.length_eq_zero_iff]
    constructor
    · rintro ⟨⟩
      refine ⟨rfl, fun place entry hentry => ?_⟩
      cases hentry
    · rintro ⟨rfl, -⟩
      rfl
  | succ count ih =>
    unfold entriesFrom
    simp only [Except.bind_eq_ok_iff, ih]
    constructor
    · rintro ⟨first, hfirst, more, ⟨rfl, hmore⟩, hpure⟩
      obtain rfl := Except.ok.inj hpure
      refine ⟨rfl, fun place entry hentry => ?_⟩
      cases place with
      | zero => exact Option.some.inj hentry ▸ hfirst
      | succ place =>
        rw [Nat.add_comm place 1, ← Nat.add_assoc]
        exact hmore place entry hentry
    · rintro ⟨hlength, h⟩
      obtain ⟨first, more, rfl⟩ := List.exists_cons_of_length_eq_add_one hlength
      refine ⟨first, h 0 first rfl, more, ⟨Nat.succ.inj hlength, fun place entry hentry => ?_⟩, rfl⟩
      rw [Nat.add_assoc, Nat.add_comm 1 place]
      exact h (place + 1) entry hentry

private theorem exists_of_entriesFrom_eq_error {count index : Nat}
    (h : entriesFrom orientation names values descriptions count index = .error fault) :
    ∃ place, place < count ∧
      entryAt orientation names values descriptions (index + place) = .error fault := by
  induction count generalizing index with
  | zero => cases h
  | succ count ih =>
    unfold entriesFrom at h
    rcases Except.bind_eq_error_iff.1 h with hfirst | ⟨first, -, hrest⟩
    · exact ⟨0, Nat.succ_pos count, hfirst⟩
    · rcases Except.bind_eq_error_iff.1 hrest with hmore | ⟨more, -, hpure⟩
      · obtain ⟨place, hplace, hentry⟩ := ih hmore
        refine ⟨place + 1, Nat.succ_lt_succ hplace, ?_⟩
        rwa [Nat.add_comm place 1, ← Nat.add_assoc]
      · cases hpure

private theorem cellOf_eq_error_iff {field : MaskField} {texts : Option (Matrix String)}
    {index : Nat} : cellOf field orientation texts index = .error fault ↔
      (texts.bind fun m => orientation.cell? m index) = none ∧
        fault = .missingCell field index := by
  unfold cellOf
  cases texts.bind fun m => orientation.cell? m index <;> simp [eq_comm]

end Rows

section Fields

variable {values names : Wire} {descriptions : Matrix String} {mask : Mask} {fault : ShapeFault}

private theorem entryAt_eq_ok_iff_textAt? {index : Nat} {entry : Entry} :
    entryAt (.ofDescriptions descriptions) names.texts? values.texts? descriptions index =
        .ok entry ↔
      names.textAt? descriptions.isHigh index = some entry.name ∧
        values.textAt? descriptions.isHigh index = some entry.value ∧
          (Wire.texts descriptions).textAt? descriptions.isHigh (index + 1) =
            some entry.description := by
  rw [entryAt_eq_ok_iff]
  simp only [textAt?_isHigh, getElem?_lineOf, Orientation.getElem?_line]
  rfl

private theorem entryAt_eq_error {index : Nat}
    (h : entryAt (.ofDescriptions descriptions) names.texts? values.texts? descriptions index =
      .error fault) :
    names.textAt? descriptions.isHigh index = none ∧ fault = .missingCell .names index ∨
      values.textAt? descriptions.isHigh index = none ∧ fault = .missingCell .values index ∨
        (Wire.texts descriptions).textAt? descriptions.isHigh (index + 1) = none := by
  simp only [textAt?_isHigh]
  unfold entryAt at h
  rcases Except.bind_eq_error_iff.1 h with hname | ⟨name, -, h⟩
  · exact Or.inl (cellOf_eq_error_iff.1 hname)
  rcases Except.bind_eq_error_iff.1 h with hvalue | ⟨value, -, h⟩
  · exact Or.inr (Or.inl (cellOf_eq_error_iff.1 hvalue))
  rcases Except.bind_eq_error_iff.1 h with hdescription | ⟨description, -, hpure⟩
  · exact Or.inr (Or.inr (cellOf_eq_error_iff.1 hdescription).1)
  · cases hpure

private theorem assemble_eq_ok_iff_textAt? :
    assemble names.texts? values.texts? descriptions = .ok mask ↔
      (Wire.texts descriptions).textAt? descriptions.isHigh 0 = some mask.title ∧
        mask.size = rowCount descriptions ∧
          ∀ index entry, mask.entries[index]? = some entry →
            entryAt (.ofDescriptions descriptions) names.texts? values.texts? descriptions index =
              .ok entry := by
  have htitle := textAt?_descriptions descriptions 0
  unfold assemble rowCount
  dsimp only
  rw [htitle, length_ofDescriptions]
  cases (Orientation.ofDescriptions descriptions).cell? descriptions 0 with
  | none => simp
  | some title =>
    simp only [Except.bind_eq_ok_iff, entriesFrom_eq_ok_iff_entryAt, Nat.zero_add,
      Option.some.injEq]
    constructor
    · rintro ⟨entries, ⟨hlength, hentries⟩, hpure⟩
      obtain rfl := Except.ok.inj hpure
      exact ⟨rfl, hlength, hentries⟩
    · rintro ⟨rfl, hsize, hentries⟩
      exact ⟨mask.entries, ⟨hsize, hentries⟩, rfl⟩

private theorem assemble_eq_error
    (h : assemble names.texts? values.texts? descriptions = .error fault) :
    (Wire.texts descriptions).textAt? descriptions.isHigh 0 = none ∧ fault = .missingTitle ∨
      0 < descriptions.size ∧ ∃ index, index < rowCount descriptions ∧
        entryAt (.ofDescriptions descriptions) names.texts? values.texts? descriptions index =
          .error fault := by
  have htitle := textAt?_descriptions descriptions 0
  unfold assemble at h
  dsimp only at h
  rw [length_ofDescriptions] at h
  split at h
  · next hnone => exact Or.inl ⟨htitle.trans hnone, (Except.error.inj h).symm⟩
  · next hsome =>
    rcases Except.bind_eq_error_iff.1 h with hentries | ⟨entries, -, hpure⟩
    · obtain ⟨index, hindex, hentry⟩ := exists_of_entriesFrom_eq_error hentries
      rw [Nat.zero_add] at hentry
      exact Or.inr ⟨size_pos_of_textAt? (htitle.trans hsome), index, hindex, hentry⟩
    · cases hpure

private theorem assemble_eq_ok_iff_readByCell (hvalues : values.list? = none)
    (hnames : names.list? = none) :
    assemble names.texts? values.texts? descriptions = .ok mask ↔
      ReadByCell values names descriptions mask := by
  simp only [assemble_eq_ok_iff_textAt?, entryAt_eq_ok_iff_textAt?]
  constructor
  · rintro ⟨htitle, hsize, hrows⟩
    exact ⟨hvalues, hnames, htitle, hsize, hrows⟩
  · intro h
    exact ⟨h.title, h.size, h.rows⟩

private theorem ReadByCell.decodable (h : ReadByCell values names descriptions mask) :
    Decodable values names descriptions := by
  refine ⟨h.valuesPlain, h.namesPlain, size_pos_of_textAt? h.title, fun hrows => ?_⟩
  obtain ⟨last, hlast⟩ := Nat.exists_eq_add_one_of_ne_zero (Nat.ne_of_gt hrows)
  have hlt : last < mask.entries.length := by
    change last < mask.size
    rw [h.size, hlast]
    exact Nat.lt_succ_self last
  obtain ⟨hname, hvalue, -⟩ := h.rows last _ (List.getElem?_eq_getElem hlt)
  rw [hlast, covers_succ_iff, covers_succ_iff, hname, hvalue]
  exact ⟨rfl, rfl⟩

/-- Fields that are large enough give a mask. -/
theorem Decodable.exists_assemble (h : Decodable values names descriptions) :
    ∃ mask, assemble names.texts? values.texts? descriptions = .ok mask := by
  have hdescriptions := covers_descriptions h.title
  cases hassemble : assemble names.texts? values.texts? descriptions with
  | ok mask => exact ⟨mask, rfl⟩
  | error fault =>
    exfalso
    rcases assemble_eq_error hassemble with ⟨htitle, -⟩ | ⟨-, index, hindex, hentry⟩
    · exact textAt?_ne_none hdescriptions (Nat.succ_pos _) htitle
    · obtain ⟨hvalues, hnames⟩ := h.rows (Nat.lt_of_le_of_lt (Nat.zero_le index) hindex)
      rcases entryAt_eq_error hentry with ⟨hname, -⟩ | ⟨hvalue, -⟩ | hdescription
      · exact textAt?_ne_none hnames hindex hname
      · exact textAt?_ne_none hvalues hindex hvalue
      · exact textAt?_ne_none hdescriptions (Nat.succ_lt_succ hindex) hdescription

/-- Where the title is found there are descriptions for all rows. -/
theorem assemble_ne_missing_description (index : Nat) :
    assemble names.texts? values.texts? descriptions ≠
      .error (.missingCell .descriptions index) := by
  intro h
  rcases assemble_eq_error h with ⟨-, hfault⟩ | ⟨hsize, place, hplace, hentry⟩
  · cases hfault
  · rcases entryAt_eq_error hentry with ⟨-, hfault⟩ | ⟨-, hfault⟩ | hdescription
    · cases hfault
    · cases hfault
    · exact textAt?_ne_none (covers_descriptions hsize) (Nat.succ_lt_succ hplace) hdescription

end Fields

section Decode

variable {values names : Wire} {descriptions : Matrix String} {pol : List Wire}

private theorem textsOrMarker_of_list?_eq_none {field : MaskField} {w : Wire} (h : w.list? = none) :
    textsOrMarker field w = .ok w.texts? := by
  cases w with
  | list items => cases h
  | _ => rfl

private theorem textsOrMarker_eq_ok {field : MaskField} {w : Wire} {texts : Option (Matrix String)}
    (h : textsOrMarker field w = .ok texts) : w.texts? = texts := by
  cases w with
  | list items => cases h
  | _ => exact Except.ok.inj h

private theorem Orientation.list?_of_line? {w : Wire} {orientation : Orientation}
    {line : List String} (h : orientation.line? w = some line) : w.list? = none := by
  cases w with
  | list items => cases h
  | _ => rfl

private theorem decode_fields (hvalues : values.list? = none) (hnames : names.list? = none) :
    decode (.list [values, .list [names, .texts descriptions, .list pol]]) =
      assemble names.texts? values.texts? descriptions := by
  change (textsOrMarker .values values >>= _) = _
  rw [textsOrMarker_of_list?_eq_none hvalues]
  change (textsOrMarker .names names >>= _) = _
  rw [textsOrMarker_of_list?_eq_none hnames]
  rfl

private theorem listOf_ne_missingCell {part field : MaskField} {w : Wire} {index : Nat} :
    listOf part w ≠ .error (.missingCell field index) := by
  cases w <;> nofun

private theorem pairOf_ne_missingCell {part field : MaskField} {w : Wire} {index : Nat} :
    pairOf part w ≠ .error (.missingCell field index) := by
  unfold pairOf
  split
  · nofun
  · nofun
  · next hlist =>
    intro h
    obtain rfl := Except.error.inj h
    exact listOf_ne_missingCell hlist

private theorem tripleOf_ne_missingCell {part field : MaskField} {w : Wire} {index : Nat} :
    tripleOf part w ≠ .error (.missingCell field index) := by
  unfold tripleOf
  split
  · nofun
  · nofun
  · next hlist =>
    intro h
    obtain rfl := Except.error.inj h
    exact listOf_ne_missingCell hlist

private theorem textsOrMarker_ne_missingCell {part field : MaskField} {w : Wire} {index : Nat} :
    textsOrMarker part w ≠ .error (.missingCell field index) := by
  cases w <;> nofun

private theorem exists_assemble_of_missingCell {w : Wire} {field : MaskField} {index : Nat}
    (h : decode w = .error (.missingCell field index)) :
    ∃ names values : Wire, ∃ descriptions, assemble names.texts? values.texts? descriptions =
      .error (.missingCell field index) := by
  cases w with
  | doubles m => cases h
  | texts m => cases h
  | list items =>
    unfold decode at h
    rcases Except.bind_eq_error_iff.1 h with hpair | ⟨⟨values, fields⟩, -, h⟩
    · exact absurd hpair pairOf_ne_missingCell
    rcases Except.bind_eq_error_iff.1 h with hvalues | ⟨valueTexts, hvalues, h⟩
    · exact absurd hvalues textsOrMarker_ne_missingCell
    rcases Except.bind_eq_error_iff.1 h with htriple | ⟨⟨names, descriptions, pol⟩, -, h⟩
    · exact absurd htriple tripleOf_ne_missingCell
    rcases Except.bind_eq_error_iff.1 h with hnames | ⟨nameTexts, hnames, h⟩
    · exact absurd hnames textsOrMarker_ne_missingCell
    cases descriptions with
    | doubles m => cases h
    | list items => cases h
    | texts m =>
      rcases Except.bind_eq_error_iff.1 h with hpol | ⟨polItems, -, h⟩
      · exact absurd hpol listOf_ne_missingCell
      · refine ⟨names, values, m, ?_⟩
        rwa [← textsOrMarker_eq_ok hnames, ← textsOrMarker_eq_ok hvalues] at h

private theorem decode_eq_ok_iff {w : Wire} {mask : Mask} :
    decode w = .ok mask ↔
      (∃ m, w = .doubles m ∧ mask = .default) ∨ ∃ values names descriptions pol,
        w = .list [values, .list [names, .texts descriptions, .list pol]] ∧
          ReadByCell values names descriptions mask := by
  constructor
  · intro h
    cases w with
    | doubles m => exact Or.inl ⟨m, rfl, (Except.ok.inj h).symm⟩
    | texts m => cases h
    | list items =>
      obtain ⟨values, names, descriptions, pol, rfl, hread⟩ := decode_list_eq_ok_iff.1 h
      obtain ⟨_, hvalues, -⟩ := hread.values
      obtain ⟨_, hnames, -⟩ := hread.names
      have hvaluesPlain := Orientation.list?_of_line? hvalues
      have hnamesPlain := Orientation.list?_of_line? hnames
      rw [decode_fields hvaluesPlain hnamesPlain,
        assemble_eq_ok_iff_readByCell hvaluesPlain hnamesPlain] at h
      exact Or.inr ⟨values, names, descriptions, pol, rfl, h⟩
  · rintro (⟨m, rfl, rfl⟩ | ⟨values, names, descriptions, pol, rfl, h⟩)
    · rfl
    · rw [decode_fields h.valuesPlain h.namesPlain]
      exact (assemble_eq_ok_iff_readByCell h.valuesPlain h.namesPlain).2 h

/-- Exactly which values can be decoded, and what they are decoded to: number matrices to the
default mask, and the lists of a mask to a title and rows that are read down the first column of the
fields, or along their first row if the descriptions are wider than high. Where a field is too small
for the descriptions a name or a value is missing, but never a description. -/
theorem decode_domain (w : Wire) :
    ((∃ mask, decode w = .ok mask) ↔
        (∃ m, w = .doubles m) ∨ ∃ values names descriptions pol,
          w = .list [values, .list [names, .texts descriptions, .list pol]] ∧
            Decodable values names descriptions) ∧
      (∀ mask, decode w = .ok mask ↔
        (∃ m, w = .doubles m ∧ mask = .default) ∨ ∃ values names descriptions pol,
          w = .list [values, .list [names, .texts descriptions, .list pol]] ∧
            ReadByCell values names descriptions mask) ∧
        ∀ index, decode w ≠ .error (.missingCell .descriptions index) := by
  refine ⟨⟨?_, ?_⟩, fun mask => decode_eq_ok_iff, fun index h => ?_⟩
  · rintro ⟨mask, h⟩
    rcases decode_eq_ok_iff.1 h with ⟨m, rfl, -⟩ | ⟨values, names, descriptions, pol, rfl, hread⟩
    · exact Or.inl ⟨m, rfl⟩
    · exact Or.inr ⟨values, names, descriptions, pol, rfl, hread.decodable⟩
  · rintro (⟨m, rfl⟩ | ⟨values, names, descriptions, pol, rfl, hfields⟩)
    · exact ⟨.default, rfl⟩
    · rw [decode_fields hfields.valuesPlain hfields.namesPlain]
      exact hfields.exists_assemble
  · obtain ⟨names, values, descriptions, hassemble⟩ := exists_assemble_of_missingCell h
    exact assemble_ne_missing_description index hassemble

end Decode

end Mask

end DiagramScope
