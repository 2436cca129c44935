import DiagramScope.Matrix

/-!
Wire values: the trees of number matrices, text matrices and lists in which masks are stored, and
the faults of data that does not have the expected shape.
-/

set_option autoImplicit false
set_option relaxedAutoImplicit false

namespace DiagramScope

inductive Wire where
  | doubles (matrix : Matrix Float)
  | texts (matrix : Matrix String)
  | list (items : List Wire)

namespace Wire

/-- The empty number matrix, which also marks missing data. -/
def noData : Wire := doubles .empty

instance : Inhabited Wire := ⟨noData⟩

def text (s : String) : Wire := texts (.scalar s)

def double (x : Float) : Wire := doubles (.scalar x)

def typeName : Wire → String
  | doubles _ => "double"
  | texts _ => "string"
  | list _ => "list"

def list? : Wire → Option (List Wire)
  | list items => some items
  | _ => none

def texts? : Wire → Option (Matrix String)
  | texts m => some m
  | _ => none

def doubles? : Wire → Option (Matrix Float)
  | doubles m => some m
  | _ => none

end Wire

inductive MaskField where
  | exprs
  | values
  | maskFields
  | names
  | descriptions
  | polFields
  deriving DecidableEq, Repr

def MaskField.text : MaskField → String
  | exprs => "exprs"
  | values => "values"
  | maskFields => "mask fields"
  | names => "names"
  | descriptions => "descriptions"
  | polFields => "pol fields"

inductive ShapeFault where
  | unexpectedType (field : MaskField) (expected found : String)
  | length (field : MaskField) (expected found : Nat)
  | missingTitle
  | missingCell (field : MaskField) (index : Nat)
  | dimensions (rows cols cells : Nat)
  deriving DecidableEq, Repr

def ShapeFault.message : ShapeFault → String
  | unexpectedType field expected found =>
    "expected " ++ expected ++ " for " ++ field.text ++ ", found " ++ found
  | length field expected found =>
    "expected " ++ field.text ++ " to hold " ++ toString expected ++ " elements, found "
      ++ toString found
  | missingTitle => "descriptions must hold at least the title"
  | missingCell field index => "no " ++ field.text ++ " value for entry " ++ toString index
  | dimensions rows cols cells =>
    "a " ++ toString rows ++ "x" ++ toString cols ++ " matrix cannot hold " ++ toString cells
      ++ " cells"

def Matrix.ofCells {α : Type} (rows cols : Nat) (cells : List α) :
    Except ShapeFault (Matrix α) :=
  match Matrix.ofCells? rows cols cells with
  | some m => .ok m
  | none => .error (.dimensions rows cols cells.length)

end DiagramScope
