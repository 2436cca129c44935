import DiagramScope.Mask
import DiagramScope.Wire

/-!
The storage format of masks. A mask is the list of its values and of a list of names, descriptions
and positioning fields; the title stands before the descriptions. A mask without rows is stored with
empty number matrices for the missing texts.
-/

set_option autoImplicit false
set_option relaxedAutoImplicit false

namespace DiagramScope.Mask

inductive Orientation where
  /-- Down the first column. -/
  | column
  /-- Along the first row. -/
  | row
  deriving DecidableEq, Repr

namespace Orientation

/-- Texts run down the first column unless the descriptions are wider than high. -/
def ofDescriptions (m : Matrix String) : Orientation := if m.cols ≤ m.rows then column else row

def length (m : Matrix String) : Orientation → Nat
  | column => m.rows
  | row => m.cols

def cell? (m : Matrix String) (index : Nat) : Orientation → Option String
  | column => m.get? index 0
  | row => m.get? 0 index

end Orientation

/-- The texts of a field. A number matrix marks that there are none. -/
def textsOrMarker (field : MaskField) : Wire → Except ShapeFault (Option (Matrix String))
  | .texts m => .ok (some m)
  | .doubles _ => .ok none
  | other => .error (.unexpectedType field "string or double" other.typeName)

def listOf (field : MaskField) : Wire → Except ShapeFault (List Wire)
  | .list items => .ok items
  | other => .error (.unexpectedType field "list" other.typeName)

def pairOf (field : MaskField) (w : Wire) : Except ShapeFault (Wire × Wire) :=
  match listOf field w with
  | .ok [a, b] => .ok (a, b)
  | .ok items => .error (.length field 2 items.length)
  | .error fault => .error fault

def tripleOf (field : MaskField) (w : Wire) : Except ShapeFault (Wire × Wire × Wire) :=
  match listOf field w with
  | .ok [a, b, c] => .ok (a, b, c)
  | .ok items => .error (.length field 3 items.length)
  | .error fault => .error fault

def cellOf (field : MaskField) (orientation : Orientation) (texts : Option (Matrix String))
    (index : Nat) : Except ShapeFault String :=
  match texts.bind fun m => orientation.cell? m index with
  | some s => .ok s
  | none => .error (.missingCell field index)

/-- The row at an index, whose description stands one place behind. -/
def entryAt (orientation : Orientation) (names values : Option (Matrix String))
    (descriptions : Matrix String) (index : Nat) : Except ShapeFault Entry := do
  let name ← cellOf .names orientation names index
  let value ← cellOf .values orientation values index
  let description ← cellOf .descriptions orientation (some descriptions) (index + 1)
  pure ⟨name, value, description⟩

def entriesFrom (orientation : Orientation) (names values : Option (Matrix String))
    (descriptions : Matrix String) : (count index : Nat) → Except ShapeFault (List Entry)
  | 0, _ => .ok []
  | count + 1, index => do
    let entry ← entryAt orientation names values descriptions index
    let more ← entriesFrom orientation names values descriptions count (index + 1)
    pure (entry :: more)

/-- The mask of three text fields: one title and a row for each further description. -/
def assemble (names values : Option (Matrix String)) (descriptions : Matrix String) :
    Except ShapeFault Mask :=
  let orientation := Orientation.ofDescriptions descriptions
  match orientation.cell? descriptions 0 with
  | none => .error .missingTitle
  | some title => do
    let entries ←
      entriesFrom orientation names values descriptions (orientation.length descriptions - 1) 0
    pure ⟨title, entries⟩

/-- Reads a stored mask. A number matrix in place of the whole stands for the default mask. -/
def decode (w : Wire) : Except ShapeFault Mask :=
  match w with
  | .doubles _ => .ok .default
  | _ => do
    let (values, fields) ← pairOf .exprs w
    let values ← textsOrMarker .values values
    let (names, descriptions, polFields) ← tripleOf .maskFields fields
    let names ← textsOrMarker .names names
    match descriptions with
    | .texts descriptions =>
      let _ ← listOf .polFields polFields
      assemble names values descriptions
    | other => .error (.unexpectedType .descriptions "string" other.typeName)

def emptyWire (title : String) : Wire :=
  .list [.noData, .list [.noData, .text title, .list [.noData]]]

def polTag : String := "pol"

/-- The dimension of a row among the positioning fields, which leaves it to be determined. -/
def automaticDimension : Float := -1

def polFields : (rows : Nat) → List Wire
  | 0 => []
  | rows + 1 => .text polTag :: .double automaticDimension :: polFields rows

/-- The stored form of a mask, with one column for each field. -/
def encode (m : Mask) : Wire :=
  if m.isEmpty then emptyWire m.title
  else
    .list
      [.texts (.column (m.entries.map Entry.value)),
        .list
          [.texts (.column m.names),
            .texts (.column (m.title :: m.entries.map Entry.description)),
            .list (polFields m.size)]]

end DiagramScope.Mask
