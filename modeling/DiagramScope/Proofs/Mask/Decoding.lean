import DiagramScope.Except
import DiagramScope.Mask.Codec
import DiagramScope.Proofs.Matrix

/-!
What is read from a stored mask. Main statements: exactly which masks decoding gives, and that it
drops what is stored beyond the first lines of its fields and nothing else.
-/

set_option autoImplicit false
set_option relaxedAutoImplicit false

namespace DiagramScope

def Wire.cellCount : Wire → Nat
  | .doubles m => m.size
  | .texts m => m.size
  | .list _ => 0

namespace Mask

def values (m : Mask) : List String := m.entries.map Entry.value

def descriptions (m : Mask) : List String := m.entries.map Entry.description

namespace Orientation

def line (m : Matrix String) : Orientation → List String
  | column => m.cells.take m.rows
  | row => m.rowCells 0

/-- The texts of a field in a direction. A number matrix has none, and a list is no such field. -/
def line? (w : Wire) (orientation : Orientation) : Option (List String) :=
  match w with
  | .texts m => some (orientation.line m)
  | .doubles _ => some []
  | .list _ => none

theorem getElem?_line (m : Matrix String) (orientation : Orientation) (index : Nat) :
    (orientation.line m)[index]? = orientation.cell? m index := by
  cases orientation with
  | column =>
    have hcells := m.length_cells
    simp only [line, cell?, Matrix.get?, List.getElem?_take, Nat.zero_mul, Nat.zero_add]
    by_cases hindex : index < m.rows
    · by_cases hcols : 0 < m.cols
      · simp [hindex, hcols]
      · have hnone : m.cells.length = 0 := by
          rw [hcells, Nat.eq_zero_of_not_pos hcols, Nat.mul_zero]
        simp [hcols, List.eq_nil_of_length_eq_zero hnone]
    · simp [hindex]
  | row => exact m.getElem?_rowCells 0 index

private theorem line_sublist (m : Matrix String) (orientation : Orientation) :
    (orientation.line m).Sublist m.cells := by
  cases orientation with
  | column => exact List.take_sublist m.rows m.cells
  | row => exact m.rowCells_sublist 0

private theorem length_line {m : Matrix String} {orientation : Orientation}
    (h : orientation.line m ≠ []) : (orientation.line m).length = orientation.length m := by
  cases orientation with
  | column =>
    have hcells : m.cells ≠ [] := fun hnil => h (by simp [line, hnil])
    have hpos := List.length_pos_iff.2 hcells
    rw [m.length_cells] at hpos
    have hrows : m.rows ≤ m.rows * m.cols :=
      Nat.le_mul_of_pos_right _ (Nat.pos_of_mul_pos_left hpos)
    simp only [line, length, List.length_take, m.length_cells]
    omega
  | row =>
    by_cases hrow : 0 < m.rows
    · exact Matrix.length_rowCells hrow
    · exact absurd (Matrix.rowCells_of_le (Nat.le_of_not_lt hrow)) h

end Orientation

section Read

private theorem listOf_eq_ok_iff {field : MaskField} {w : Wire} {items : List Wire} :
    listOf field w = .ok items ↔ w = .list items := by
  cases w <;> simp [listOf]

theorem pairOf_eq_ok_iff {field : MaskField} {w a b : Wire} :
    pairOf field w = .ok (a, b) ↔ w = .list [a, b] := by
  unfold pairOf
  constructor
  · intro h
    split at h
    · next hlist =>
      cases h
      exact listOf_eq_ok_iff.1 hlist
    · cases h
    · cases h
  · rintro rfl
    rfl

theorem tripleOf_eq_ok_iff {field : MaskField} {w a b c : Wire} :
    tripleOf field w = .ok (a, b, c) ↔ w = .list [a, b, c] := by
  unfold tripleOf
  constructor
  · intro h
    split at h
    · next hlist =>
      cases h
      exact listOf_eq_ok_iff.1 hlist
    · cases h
    · cases h
  · rintro rfl
    rfl

def lineOf (orientation : Orientation) (texts : Option (Matrix String)) : List String :=
  (texts.map fun m => orientation.line m).getD []

private theorem exists_textsOrMarker_iff {field : MaskField} {w : Wire} {orientation : Orientation}
    {line : List String} :
    (∃ texts, textsOrMarker field w = .ok texts ∧ lineOf orientation texts = line) ↔
      orientation.line? w = some line := by
  cases w <;> simp [textsOrMarker, Orientation.line?, lineOf]

theorem getElem?_lineOf (orientation : Orientation) (texts : Option (Matrix String)) (index : Nat) :
    (lineOf orientation texts)[index]? = texts.bind fun m => orientation.cell? m index := by
  cases texts with
  | none => rfl
  | some m => exact orientation.getElem?_line m index

private theorem cellOf_eq_ok_iff {field : MaskField} {orientation : Orientation}
    {texts : Option (Matrix String)} {index : Nat} {s : String} :
    cellOf field orientation texts index = .ok s ↔ (lineOf orientation texts)[index]? = some s := by
  rw [getElem?_lineOf]
  unfold cellOf
  cases texts.bind fun m => orientation.cell? m index <;> simp

private theorem cons_prefix_drop_iff {s : String} {more found : List String} {index : Nat} :
    s :: more <+: found.drop index ↔ found[index]? = some s ∧ more <+: found.drop (index + 1) := by
  by_cases hindex : index < found.length
  · rw [List.drop_eq_getElem_cons hindex, List.cons_prefix_cons, List.getElem?_eq_getElem hindex,
      Option.some.injEq, eq_comm]
  · have hbehind : found.length ≤ index := Nat.le_of_not_lt hindex
    simp [List.drop_eq_nil_of_le hbehind, List.getElem?_eq_none hbehind]

variable {orientation : Orientation} {values names : Option (Matrix String)}
  {descriptions : Matrix String}

theorem entryAt_eq_ok_iff {index : Nat} {entry : Entry} :
    entryAt orientation names values descriptions index = .ok entry ↔
      (lineOf orientation names)[index]? = some entry.name ∧
        (lineOf orientation values)[index]? = some entry.value ∧
          (orientation.line descriptions)[index + 1]? = some entry.description := by
  unfold entryAt
  simp only [Except.bind_eq_ok_iff, cellOf_eq_ok_iff]
  constructor
  · rintro ⟨name, hname, value, hvalue, description, hdescription, hpure⟩
    obtain rfl := Except.ok.inj hpure
    exact ⟨hname, hvalue, hdescription⟩
  · rintro ⟨hname, hvalue, hdescription⟩
    exact ⟨_, hname, _, hvalue, _, hdescription, rfl⟩

private theorem entriesFrom_eq_ok_iff {count index : Nat} {entries : List Entry} :
    entriesFrom orientation names values descriptions count index = .ok entries ↔
      entries.length = count ∧
        entries.map Entry.name <+: (lineOf orientation names).drop index ∧
          entries.map Entry.value <+: (lineOf orientation values).drop index ∧
            entries.map Entry.description <+:
              (orientation.line descriptions).drop (index + 1) := by
  induction count generalizing index entries with
  | zero =>
    unfold entriesFrom
    rw [List.length_eq_zero_iff]
    constructor
    · rintro ⟨⟩
      simp
    · rintro ⟨rfl, -⟩
      rfl
  | succ count ih =>
    unfold entriesFrom
    simp only [Except.bind_eq_ok_iff, entryAt_eq_ok_iff, ih]
    constructor
    · rintro
        ⟨entry, ⟨hname, hvalue, hdescription⟩, more, ⟨rfl, hnames, hvalues, hdescriptions⟩, hpure⟩
      obtain rfl := Except.ok.inj hpure
      simp only [List.map_cons, cons_prefix_drop_iff]
      exact ⟨rfl, ⟨hname, hnames⟩, ⟨hvalue, hvalues⟩, hdescription, hdescriptions⟩
    · rintro ⟨hlength, h⟩
      obtain ⟨entry, more, rfl⟩ := List.exists_cons_of_length_eq_add_one hlength
      simp only [List.map_cons, cons_prefix_drop_iff] at h
      obtain ⟨⟨hname, hnames⟩, ⟨hvalue, hvalues⟩, hdescription, hdescriptions⟩ := h
      exact ⟨entry, ⟨hname, hvalue, hdescription⟩, more,
        ⟨Nat.succ.inj hlength, hnames, hvalues, hdescriptions⟩, rfl⟩

/-- A mask and the fields that it is read from. The lines are taken in the direction in which the
descriptions run. The mask has all descriptions of its line behind the title, and as many names and
values from the start of theirs. -/
structure ReadFrom (values names : Wire) (descriptions : Matrix String) (mask : Mask) : Prop where
  names : ∃ line, (Orientation.ofDescriptions descriptions).line? names = some line ∧
    mask.names <+: line
  values : ∃ line, (Orientation.ofDescriptions descriptions).line? values = some line ∧
    mask.values <+: line
  descriptions : (Orientation.ofDescriptions descriptions).line descriptions =
    mask.title :: mask.descriptions

private theorem assemble_eq_ok_iff {mask : Mask} :
    assemble names values descriptions = .ok mask ↔
      (Orientation.ofDescriptions descriptions).line descriptions =
          mask.title :: mask.descriptions ∧
        mask.names <+: lineOf (.ofDescriptions descriptions) names ∧
          mask.values <+: lineOf (.ofDescriptions descriptions) values := by
  unfold assemble
  dsimp only
  generalize Orientation.ofDescriptions descriptions = orientation
  rw [← Orientation.getElem?_line]
  cases hline : orientation.line descriptions with
  | nil => simp
  | cons title more =>
    have hlength : orientation.length descriptions - 1 = more.length := by
      rw [← Orientation.length_line (by simp [hline]), hline]
      rfl
    simp only [List.getElem?_cons_zero, Except.bind_eq_ok_iff, entriesFrom_eq_ok_iff, hlength,
      hline, List.drop_zero, List.drop_succ_cons]
    constructor
    · rintro ⟨entries, ⟨hcount, hnames, hvalues, hdescriptions⟩, hpure⟩
      obtain rfl := Except.ok.inj hpure
      have hall := hdescriptions.eq_of_length (by rw [List.length_map, hcount])
      exact ⟨by rw [Mask.descriptions, hall], hnames, hvalues⟩
    · rintro ⟨hdescriptions, hnames, hvalues⟩
      obtain ⟨rfl, rfl⟩ := List.cons.inj hdescriptions
      exact ⟨mask.entries, ⟨(List.length_map _).symm, hnames, hvalues, List.prefix_rfl⟩, rfl⟩

theorem decode_list_eq_ok_iff {items : List Wire} {mask : Mask} :
    decode (.list items) = .ok mask ↔
      ∃ values names descriptions pol,
        items = [values, .list [names, .texts descriptions, .list pol]] ∧
          ReadFrom values names descriptions mask := by
  unfold decode
  simp only [Except.bind_eq_ok_iff, Prod.exists, pairOf_eq_ok_iff, tripleOf_eq_ok_iff]
  constructor
  · rintro ⟨values, fields, hitems, vs, hvs, names, descriptions, pol, rfl, ns, hns, h⟩
    cases descriptions with
    | texts descriptions =>
      obtain ⟨polItems, hpol, h⟩ := Except.bind_eq_ok_iff.1 h
      obtain rfl := listOf_eq_ok_iff.1 hpol
      obtain ⟨hdescriptions, hnames, hvalues⟩ := assemble_eq_ok_iff.1 h
      exact ⟨values, names, descriptions, polItems, Wire.list.inj hitems,
        ⟨_, exists_textsOrMarker_iff.1 ⟨ns, hns, rfl⟩, hnames⟩,
        ⟨_, exists_textsOrMarker_iff.1 ⟨vs, hvs, rfl⟩, hvalues⟩, hdescriptions⟩
    | doubles m => cases h
    | list items => cases h
  · rintro ⟨values, names, descriptions, pol, rfl, ⟨_, hns, hnames⟩, ⟨_, hvs, hvalues⟩,
      hdescriptions⟩
    obtain ⟨ns, hns, rfl⟩ := exists_textsOrMarker_iff.2 hns
    obtain ⟨vs, hvs, rfl⟩ := exists_textsOrMarker_iff.2 hvs
    refine ⟨values, _, rfl, vs, hvs, names, .texts descriptions, .list pol, rfl, ns, hns, ?_⟩
    exact Except.bind_eq_ok_iff.2
      ⟨pol, rfl, assemble_eq_ok_iff.2 ⟨hdescriptions, hnames, hvalues⟩⟩

end Read

/-- The texts `texts` are all that a field holds, in this order. An empty number matrix holds
none. -/
inductive Holds : Wire → List String → Prop where
  | texts (m : Matrix String) : Holds (.texts m) m.cells
  | marker {m : Matrix Float} (h : m.cells = []) : Holds (.doubles m) []

private theorem holds_iff_cellCount {orientation : Orientation} {w : Wire}
    {line texts : List String} (hline : orientation.line? w = some line) (htexts : texts <+: line) :
    Holds w texts ↔ w.cellCount = texts.length := by
  cases w with
  | list items => cases hline
  | texts m =>
    obtain rfl := Option.some.inj hline
    constructor
    · rintro ⟨⟩
      rfl
    · intro hcount
      obtain rfl := (htexts.sublist.trans (orientation.line_sublist m)).eq_of_length hcount.symm
      exact .texts m
  | doubles m =>
    obtain rfl := Option.some.inj hline
    obtain rfl := List.prefix_nil.1 htexts
    constructor
    · rintro ⟨⟩
      next h => exact congrArg List.length h
    · exact fun hcount => .marker (List.eq_nil_of_length_eq_zero hcount)

/-- What is stored beyond the first lines is dropped. A stored mask other than a number matrix is
read off the lines that start its fields: all of the descriptions, the first of which is the title,
and as many names and values; where a number matrix stands for names or values there are no rows.
Everything that is stored is read exactly if the fields have as many cells as that. -/
theorem masks_are_read_off_lines {w : Wire} {mask : Mask} (hw : w.doubles? = none)
    (h : decode w = .ok mask) :
    ∃ values names descriptions pol,
      w = .list [values, .list [names, .texts descriptions, .list pol]] ∧
        ReadFrom values names descriptions mask ∧
          ((Holds values mask.values ∧ Holds names mask.names ∧
              Holds (.texts descriptions) (mask.title :: mask.descriptions)) ↔
            values.cellCount = mask.size ∧ names.cellCount = mask.size ∧
              descriptions.size = mask.size + 1) := by
  cases w with
  | doubles m => cases hw
  | texts m => cases h
  | list items =>
    obtain ⟨values, names, descriptions, pol, rfl, hread⟩ := decode_list_eq_ok_iff.1 h
    refine ⟨values, names, descriptions, pol, rfl, hread, ?_⟩
    obtain ⟨⟨_, hnames, hnamesStart⟩, ⟨_, hvalues, hvaluesStart⟩, hdescriptions⟩ := hread
    have hdescriptionsCount := holds_iff_cellCount (w := .texts descriptions)
      (congrArg some hdescriptions) List.prefix_rfl
    rw [holds_iff_cellCount hvalues hvaluesStart, holds_iff_cellCount hnames hnamesStart,
      hdescriptionsCount]
    simp only [Mask.values, Mask.names, Mask.descriptions, List.length_map, List.length_cons]
    rfl

def stored (values names descriptions : Wire) : Wire :=
  .list [values, .list [names, descriptions, .list []]]

def twoColumns : Matrix String := ⟨2, 2, ["t", "x", "u", "y"], rfl⟩

def oneRow : Mask := ⟨"t", [⟨"a", "1", "x"⟩]⟩

theorem masks_are_read_off_lines_wide :
    ∃ w mask, w = stored (.text "1") (.texts (.column ["a", "b"])) (.texts twoColumns) ∧
      w.doubles? = none ∧ decode w = .ok mask ∧ mask = oneRow ∧
        ∃ values names descriptions pol,
          w = .list [values, .list [names, .texts descriptions, .list pol]] ∧
            ReadFrom values names descriptions mask ∧
              ((Holds values mask.values ∧ Holds names mask.names ∧
                  Holds (.texts descriptions) (mask.title :: mask.descriptions)) ↔
                values.cellCount = mask.size ∧ names.cellCount = mask.size ∧
                  descriptions.size = mask.size + 1) :=
  ⟨_, _, rfl, rfl, rfl, rfl, masks_are_read_off_lines rfl rfl⟩

/-- Three ways to lose what is stored: a name too many, a second column of descriptions, and numbers
in place of the values of a mask without rows. -/
theorem decoding_drops_cells :
    (decode (stored (.text "1") (.texts (.column ["a", "b"])) (.texts (.column ["t", "x"]))) =
        .ok oneRow ∧ (Wire.texts (.column ["a", "b"])).cellCount ≠ oneRow.size) ∧
      (decode (stored (.text "1") (.text "a") (.texts twoColumns)) = .ok oneRow ∧
        twoColumns.size ≠ oneRow.size + 1) ∧
        decode (stored (.double 1) .noData (.text "t")) = .ok ⟨"t", []⟩ ∧
          (Wire.double 1).cellCount ≠ 0 := by
  refine ⟨⟨rfl, ?_⟩, ⟨rfl, ?_⟩, rfl, ?_⟩ <;> decide

end Mask

end DiagramScope
